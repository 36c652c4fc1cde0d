import Luksbox.Proofs.AnchorHeader
import Luksbox.Proofs.Generations

/-!
# Commits over the life of a vault

The record of `Proofs/Generations.lean` carried through header writes, rotations
and crashes. A rotation leaves two vault files for a while, and the record has
to hold of both: of the original, which a crash or an abort goes back to, and of
the copy, which the rename puts in its place.
-/

namespace Luksbox

open Lib

namespace Vault

variable {w : Prop} {v v' : Vault} {m : Metadata} {ms : List Metadata} {α : Type}

/-- The record is kept in the file at the vault's path. -/
def Lasting (w : Prop) (v : Vault) : Prop :=
  Recorded w v.vfs.container v.committedData v.vfs.tree.nextChunkGen

/-- Metadata that may be written into the copy. -/
structure Vouches (w : Prop) (m : Metadata) (v : Vault) : Prop where
  kept : ∀ g, v.vfs.container.Marked w g → g ≤ m.generation
  current : w → v.vfs.tree.nextChunkGen ≤ m.generation

/-- While a rotation is in flight. Under `w` the copy is as new as the counter
in memory, which the anchor will be set to. `ms` is metadata read before the
rotation began, to be written into the copy. -/
structure Copied (w : Prop) (ms : List Metadata) (v : Vault) : Prop where
  original : ∃ d, v.otherData = some d ∧
    Recorded w v.vfs.container d v.vfs.tree.nextChunkGen
  copy : Recorded w v.vfs.container v.vfs.container.dataFile v.vfs.tree.nextChunkGen
  unmirrored : v.vfs.container.mirror = none
  current : w → ∀ m, v.vfs.container.live = some m → v.vfs.tree.nextChunkGen ≤ m.generation
  vouched : ∀ m ∈ ms, Vouches w m v

/-- The vault file is the one behind the handle and nothing in it is older than
the counter. -/
structure Settled (w : Prop) (v : Vault) : Prop where
  idle : v.otherData = none
  lasting : Lasting w v
  current : w → ∀ m, some m ∈ v.vfs.container.dataFile.regions →
    v.vfs.tree.nextChunkGen ≤ m.generation

theorem Vouches.mono {c : Container} (h : Vouches w m v) (hc : SameRecord v.vfs.container c) :
    Vouches w m { v with vfs := { v.vfs with container := c } } :=
  ⟨fun g hg => h.kept g (hc.marked.mp hg), h.current⟩

theorem Lasting.of_idle (h : v.otherData = none) :
    Lasting w v ↔ Recorded w v.vfs.container v.vfs.container.dataFile v.vfs.tree.nextChunkGen := by
  unfold Lasting committedData
  rw [h]
  exact Iff.rfl

theorem Copied.lasting (h : Copied w ms v) : Lasting w v := by
  obtain ⟨d, hd, hrec⟩ := h.original
  unfold Lasting committedData
  rw [hd]
  exact hrec

/-! ## The header half -/

theorem onHead_keeps {I : Vault → Prop} {m : HeadM α} (hI : ∀ v h, I v → I (v.putHead h)) :
    Keeps I (onHead m) := by
  refine Keeps.zoom fun v h => ?_
  exact wp_intro (fun _ t _ => hI v t h) fun _ t _ => hI v t h

theorem Lasting.putHead {h : Head} (hv : Lasting w v) : Lasting w (v.putHead h) :=
  hv.mono ⟨rfl, rfl, rfl⟩ (fun _ hm => hm) (.inl rfl) (le_refl _)

theorem Copied.putHead {h : Head} (hv : Copied w ms v) : Copied w ms (v.putHead h) := by
  obtain ⟨d, hd, hrec⟩ := hv.original
  exact ⟨⟨d, hd, hrec.mono ⟨rfl, rfl, rfl⟩ (fun _ hm => hm) (.inl rfl) (le_refl _)⟩,
    hv.copy.mono ⟨rfl, rfl, rfl⟩ (fun _ hm => hm) (.inl rfl) (le_refl _), hv.unmirrored, hv.current,
    fun m hm => ⟨(hv.vouched m hm).kept, (hv.vouched m hm).current⟩⟩

/-! ## The body of a rotation -/

/-- A step of the container that leaves the copies of the metadata alone. -/
theorem Copied.slots {c : Container} (h : Copied w ms v) (hc : Vfs.SlotsOnly v.vfs.container c) :
    Copied w ms { v with vfs := { v.vfs with container := c } } := by
  obtain ⟨d, hd, hrec⟩ := h.original
  have hsame : SameRecord v.vfs.container c := by
    rw [hc]
    exact ⟨rfl, rfl, rfl⟩
  have hregions : c.dataFile.regions = v.vfs.container.dataFile.regions := by
    rw [hc]
    rfl
  have hmirror : c.mirror = v.vfs.container.mirror := by
    rw [hc]
  have hlive : c.live = v.vfs.container.live := by
    rw [hc]
  exact ⟨⟨d, hd, hrec.mono hsame (fun _ hm => hm) (.inl rfl) (le_refl _)⟩,
    h.copy.mono hsame (fun m hm => hregions ▸ hm) (.inl hmirror) (le_refl _),
    hmirror.trans h.unmirrored, fun hw m hm => h.current hw m (hlive ▸ hm),
    fun m hm => (h.vouched m hm).mono hsame⟩

theorem slotsOnly_trans {c c' c'' : Container} (h : Vfs.SlotsOnly c c') (h' : Vfs.SlotsOnly c' c'') :
    Vfs.SlotsOnly c c'' := by
  unfold Vfs.SlotsOnly at *
  rw [h', h]

theorem onContainer_copied {m : ContainerM α} (hm : ∀ c, Keeps (Vfs.SlotsOnly c) m) :
    Keeps (Copied w ms) (onContainer m) := by
  refine Keeps.zoom fun v h => ?_
  unfold Vfs.onContainer
  rw [wp_zoom]
  exact wp_mono (hm _ _ rfl) (fun _ c hc => h.slots hc) fun _ c hc => h.slots hc

theorem writeAt_slots {c : Container} {off : Nat} {id : ChunkId} {slot : Slot} :
    Keeps (Vfs.SlotsOnly c) (Container.writeAt off id slot) := fun _ h =>
  Container.writeAt_spec (fun _ => slotsOnly_trans h Vfs.slotsOnly_storeSlot)
    (fun _ => slotsOnly_trans h Vfs.slotsOnly_withIo)
    fun _ _ _ => slotsOnly_trans h Vfs.slotsOnly_storeSlot

theorem readAt_slots {c : Container} {off : Nat} {id : ChunkId} :
    Keeps (Vfs.SlotsOnly c) (Container.readAt off id) := fun _ h =>
  Container.readAt_spec (fun _ _ => slotsOnly_trans h Vfs.slotsOnly_withIo)
    fun _ => slotsOnly_trans h Vfs.slotsOnly_withIo

theorem rekeyChunkAt_slots {c : Container} {id : ChunkId} {old new : SubKey} {aad : Aad} :
    Keeps (Vfs.SlotsOnly c) (Container.rekeyChunkAt id old new aad) := by
  refine Keeps.bind Keeps.get fun _ => Keeps.bind Keeps.fromExcept fun _ => ?_
  refine Keeps.bind readAt_slots fun _ => ?_
  split
  · exact Keeps.throw
  · exact writeAt_slots

theorem rekeyRefs_slots {c : Container} {id : FileId} {old new : SubKey} (idx : Nat)
    (refs : List ChunkRef) : Keeps (Vfs.SlotsOnly c) (Container.rekeyRefs id old new idx refs) := by
  induction refs generalizing idx with
  | nil => exact Keeps.pure
  | cons r rest ih => exact Keeps.bind rekeyChunkAt_slots fun _ => ih _

theorem rekeyInodes_slots {c : Container} {old new : FileId → SubKey} (l : List (FileId × Inode)) :
    Keeps (Vfs.SlotsOnly c) (Container.rekeyInodes old new l) := by
  induction l with
  | nil => exact Keeps.pure
  | cons p rest ih =>
      refine Keeps.bind (Keeps.ite Keeps.pure ?_) fun _ => ih
      exact Keeps.bind (rekeyRefs_slots _ _) fun _ => rekeyRefs_slots _ _

theorem scrubSlots_slots {c : Container} {inUse : List ChunkId} (ids : List ChunkId) :
    Keeps (Vfs.SlotsOnly c) (Container.scrubSlots inUse ids) := by
  induction ids with
  | nil => exact Keeps.pure
  | cons id rest ih =>
      refine Keeps.ite ih ?_
      refine Keeps.bind Keeps.get fun _ => Keeps.bind Keeps.fromExcept fun _ => ?_
      exact Keeps.bind writeAt_slots fun _ => ih

theorem scrub_copied : Keeps (Copied w ms) scrubUnreferencedChunkSlots :=
  Keeps.bind Keeps.get fun _ => onContainer_copied fun _ => scrubSlots_slots _

/-- The copy after its metadata was written again. -/
theorem Copied.landing {c : Container} (h : Copied w ms v) (hm : Vouches w m v)
    (hc : Container.Landing m v.vfs.container c) (hmirror : c.mirror = none)
    (hlive : ∀ m', c.live = some m' → v.vfs.container.live = some m' ∨ m' = m) :
    Copied w ms { v with vfs := { v.vfs with container := c } } := by
  obtain ⟨d, hd, hrec⟩ := h.original
  refine ⟨⟨d, hd, hrec.mono hc.rest.record (fun _ hm => hm) (.inl rfl) (le_refl _)⟩,
    ⟨?_, fun g hg => ?_, fun g hg m' hm' => ?_, fun _ => hmirror⟩, hmirror, fun hw m' hm' => ?_,
    fun m hm => (h.vouched m hm).mono hc.rest.record⟩
  · have := h.copy.descending
    unfold Container.doneGenerations at this ⊢
    rwa [hc.rest.record.history]
  · exact h.copy.next g (hc.rest.record.marked.mp hg)
  · have hg := hc.rest.record.marked.mp hg
    rcases hc.regions m' hm' with hm' | rfl
    · exact h.copy.kept g hg m' hm'
    · exact hm.kept g hg
  · rcases hlive m' hm' with hm' | rfl
    · exact h.current hw m' hm'
    · exact hm.current hw

/-- What a write of `m` into the copy may have done. -/
structure Rewriting (m : Metadata) (c₀ c : Container) : Prop where
  landing : Container.Landing m c₀ c
  mirror : c.mirror = c₀.mirror
  live : ∀ m', c.live = some m' → c₀.live = some m' ∨ m' = m

theorem Rewriting.withIo {c₀ c : Container} {io : List Fault} (h : Rewriting m c₀ c) :
    Rewriting m c₀ (c.withIo io) :=
  ⟨h.landing.trans Container.landing_withIo, h.mirror, h.live⟩

theorem Rewriting.synced {c₀ c : Container} {io : List Fault} (h : Rewriting m c₀ c) :
    Rewriting m c₀ (c.withIo io).synced :=
  ⟨h.landing.trans Container.landing_synced, h.mirror, h.live⟩

theorem Rewriting.written {c₀ c : Container} {io : List Fault} {r : Region} (h : Rewriting m c₀ c)
    (hr : r = some m ∨ r = none) :
    Rewriting m c₀ { c.withIo io with live := r, liveMaybe := r :: c.liveMaybe } := by
  refine ⟨h.landing.trans (Container.landing_live hr), h.mirror, fun m' hm' => .inr ?_⟩
  have hm' : r = some m' := hm'
  rcases hr with hr | hr
  · rw [hr] at hm'
    injection hm' with hm'
    exact hm'.symm
  · rw [hr] at hm'
    cases hm'

theorem writeMetadataInFlight_rewriting {c₀ : Container} :
    Keeps (Rewriting m c₀) (Container.writeMetadataInFlight m) := by
  refine Keeps.bind Keeps.get fun _ => Keeps.ite Keeps.throw (Keeps.bind ?_ fun _ => ?_)
  · intro c h
    unfold Container.writeLive
    rw [wp_bind]
    refine Container.nextFault_spec fun fault io => ?_
    cases fault with
    | ok => exact h.written (.inl rfl)
    | before => exact h.withIo
    | torn left written => exact h.written (.inr rfl)
    | after => exact h.written (.inl rfl)
  · refine Keeps.bind (fun c h => ?_) fun _ c h => ?_
    · exact Container.syncAll_spec (fun _ => h.synced) (fun _ => h.withIo) fun _ => h.synced
    · exact Container.ioCall_spec (fun _ => h.withIo) fun _ => h.withIo

theorem Rewriting.start {c₀ : Container} {mvk : Nat} :
    Rewriting m c₀ { c₀ with mvk := mvk } :=
  ⟨⟨⟨⟨rfl, rfl, rfl⟩, rfl, rfl⟩, fun _ h => .inl h, .inl rfl⟩, rfl, fun _ h => .inl h⟩

theorem Rewriting.withMvk {c₀ c : Container} {mvk : Nat} (h : Rewriting m c₀ c) :
    Rewriting m c₀ { c with mvk := mvk } :=
  ⟨⟨⟨⟨h.landing.rest.record.history, h.landing.rest.record.anchor, h.landing.rest.record.deniable⟩,
    h.landing.rest.header, h.landing.rest.fresh⟩, h.landing.regions, h.landing.mirror⟩, h.mirror,
    h.live⟩

theorem Copied.rewriting {c : Container} (h : Copied w ms v) (hm : Vouches w m v)
    (hc : Rewriting m v.vfs.container c) :
    Copied w ms { v with vfs := { v.vfs with container := c } } :=
  h.landing hm hc.landing (hc.mirror.trans h.unmirrored) hc.live

theorem writeMetadataInFlight_copied (h : Copied w ms v) (hm : Vouches w m v) :
    wp (onContainer (Container.writeMetadataInFlight m)) (fun _ v' => Copied w ms v')
      (fun _ v' => Copied w ms v') v := by
  unfold onContainer onVfs Vfs.onContainer
  rw [wp_zoom, wp_zoom]
  have hstart : Rewriting m v.vfs.container v.vfs.container := Rewriting.start
  exact wp_mono (writeMetadataInFlight_rewriting _ hstart) (fun _ _ hc => h.rewriting hm hc)
    fun _ _ hc => h.rewriting hm hc

/-- The copy's own metadata vouches for everything the copy does. -/
theorem Copied.vouches (h : Copied w ms v) (hm : v.vfs.container.live = some m) : Vouches w m v :=
  ⟨fun g hg => h.copy.kept g hg m (hm ▸ List.mem_cons_self), fun hw => h.current hw m hm⟩

theorem rekeyMetadata_copied {newMvk : Nat} :
    Keeps (Copied w ms) (onContainer (Container.rekeyMetadata newMvk)) := by
  refine Keeps.zoom fun v h => ?_
  unfold Vfs.onContainer Container.rekeyMetadata
  rw [wp_zoom, wp_bind]
  -- reading changes nothing that matters, and finds the live region
  have hread : wp Container.readMetadata
      (fun m c => Copied w ms { v with vfs := { v.vfs with container := c } } ∧ c.live = some m)
      (fun _ c => Copied w ms { v with vfs := { v.vfs with container := c } }) v.vfs.container := by
    unfold Container.readMetadata
    rw [wp_bind]
    refine Container.ioCall_spec (fun io => ?_) fun io => h.slots Vfs.slotsOnly_withIo
    rw [wp_bind, wp_get]
    split
    · next m hlive => exact ⟨h.slots Vfs.slotsOnly_withIo, hlive⟩
    · split
      · exact h.slots Vfs.slotsOnly_withIo
      · next m hmirror =>
          have hnone : v.vfs.container.mirror = none := h.unmirrored
          have hsome : v.vfs.container.mirror = some m := hmirror
          rw [hnone] at hsome
          cases hsome
  refine wp_mono hread ?_ fun _ _ hc => hc
  rintro m c ⟨hc, hlive⟩
  rw [wp_bind, wp_get, wp_bind, wp_modify, wp_bind, wp_attempt]
  have hv : Vouches w m { v with vfs := { v.vfs with container := c } } := hc.vouches hlive
  have hstart : Rewriting m c { c with mvk := newMvk } := Rewriting.start
  refine wp_mono (writeMetadataInFlight_rewriting _ hstart) ?_ ?_
  · intro _ c' hc'
    exact hc.rewriting hv hc'
  · intro _ c' hc'
    exact hc.rewriting hv hc'.withMvk

theorem doRotation_copied {credentials : List SlotCredential} {newMvk nonce : Nat} :
    Keeps (Copied w ms) (doRotation credentials newMvk nonce) := by
  refine Keeps.bind Keeps.get fun _ => ?_
  refine Keeps.bind (onContainer_copied fun _ => rekeyInodes_slots _) fun _ => ?_
  refine Keeps.bind scrub_copied fun _ => Keeps.bind rekeyMetadata_copied fun _ => ?_
  refine Keeps.bind Keeps.fromExcept fun _ => ?_
  refine Keeps.bind (onHead_keeps fun _ _ h => h.putHead) fun _ => ?_
  exact onHead_keeps fun _ _ h => h.putHead

theorem doRotationDeniable_copied {accepts : Argon2idParams → Bool} {newSalt newMvk nonce : Nat}
    {fill : Fin deniableSlotCount → Nat} {keep : List KeepSlot} {old : FileId → SubKey}
    (hm : m ∈ ms) :
    Keeps (Copied w ms) (doRotationDeniable accepts newSalt newMvk nonce fill keep m old) := by
  refine Keeps.bind (onHead_keeps fun _ _ h => h.putHead) fun _ => Keeps.bind Keeps.get fun _ => ?_
  refine Keeps.bind (onContainer_copied fun _ => rekeyInodes_slots _) fun _ => ?_
  refine Keeps.bind scrub_copied fun _ => Keeps.bind (fun v h => ?_) fun _ => ?_
  · exact writeMetadataInFlight_copied h (h.vouched m hm)
  · exact onHead_keeps fun _ _ h => h.putHead

/-! ## A rotation -/

/-- What a rotation needs: the handle is on the vault file and, under `w`, the
metadata an open would read is as new as the counter in memory. -/
structure MayRotate (w : Prop) (v : Vault) : Prop where
  idle : v.otherData = none
  lasting : Lasting w v
  current : w → ∀ m, (v.vfs.container.live = some m ∨
    (v.vfs.container.live = none ∧ v.vfs.container.mirror = some m)) →
      v.vfs.tree.nextChunkGen ≤ m.generation

theorem begin_copied (h : MayRotate w v) (hms : ∀ m ∈ ms, Vouches w m v) :
    wp beginAtomicRotation (fun _ v' => Copied w ms v') (fun _ v' => Lasting w v') v := by
  unfold beginAtomicRotation onHead
  rw [wp_bind, wp_zoom]
  refine wp_intro (fun _ hd _ => ?_) fun _ hd _ => h.lasting.putHead
  rw [wp_modify]
  have hrec := (Lasting.of_idle h.idle).mp h.lasting
  refine ⟨⟨_, rfl, hrec.mono ⟨rfl, rfl, rfl⟩ (fun _ hm => hm) (.inl rfl) (le_refl _)⟩,
    hrec.mono ⟨rfl, rfl, rfl⟩ (fun m hm => ?_) (.inr rfl) (le_refl _), rfl,
    fun hw m hm => h.current hw m (.inl hm),
    fun m hm => ⟨(hms m hm).kept, (hms m hm).current⟩⟩
  have hm : some m ∈ v.vfs.container.live :: none :: v.vfs.container.liveMaybe := hm
  show some m ∈ v.vfs.container.live :: v.vfs.container.mirror :: v.vfs.container.liveMaybe
  rcases List.mem_cons.mp hm with hm | hm
  · exact List.mem_cons.mpr (.inl hm)
  rcases List.mem_cons.mp hm with hm | hm
  · cases hm
  · exact List.mem_cons_of_mem _ (List.mem_cons_of_mem _ hm)

theorem Copied.afterRename (h : Copied w ms v) : Settled w v.afterRename := by
  have hregions : ∀ m, some m ∈ v.afterRename.vfs.container.dataFile.regions →
      v.vfs.container.live = some m := by
    intro m hm
    have hm : some m ∈ [v.vfs.container.live, none, v.vfs.container.live] := hm
    simp only [List.mem_cons, List.not_mem_nil, or_false, reduceCtorEq, false_or] at hm
    rcases hm with hm | hm
    · exact hm.symm
    · exact hm.symm
  refine ⟨rfl, (Lasting.of_idle rfl).mpr ?_, fun hw m hm => h.current hw m (hregions m hm)⟩
  refine h.copy.mono ⟨rfl, rfl, rfl⟩ (fun m hm => ?_) (.inr rfl) (le_refl _)
  exact hregions m hm ▸ List.mem_cons_self

theorem commit_settled {io : CommitIo} (h : Copied w ms v) :
    wp (commitAtomicRotation io) (fun _ v' => Settled w v') (fun _ v' => Lasting w v') v := by
  unfold commitAtomicRotation
  rw [wp_bind, wp_modify, wp_bind, wp_attempt]
  have hio : Copied w ms { v with head := { v.head with io := io.steps } } :=
    ⟨h.original, h.copy, h.unmirrored, h.current, fun m hm => ⟨(h.vouched m hm).kept,
      (h.vouched m hm).current⟩⟩
  have hhead : Keeps (Copied w ms) (onHead Head.commitAtomicRotation) :=
    onHead_keeps fun _ _ h => h.putHead
  refine wp_mono (hhead _ hio) ?_ ?_
  · intro _ v₁ h₁
    exact h₁.afterRename
  · intro e v₁ h₁
    rw [wp_bind, wp_modify, wp_throw]
    split
    · exact h₁.afterRename.lasting
    · exact h₁.lasting

theorem afterRotation_lasting {anchor : Fault} (h : Settled w v) :
    wp (afterRotation anchor) (fun _ v' => Lasting w v') (fun _ v' => Lasting w v') v := by
  unfold afterRotation
  rw [wp_bind, wp_modify, wp_bind, wp_get]
  have hrec := (Lasting.of_idle h.idle).mp h.lasting
  have hlasting : ∀ {c : Container}, Recorded w c c.dataFile v.vfs.tree.nextChunkGen →
      Lasting w { v with vfs := { Vfs.markAllChunksDirty v.vfs with container := c } } := by
    intro c hc
    have hidle : ({ v with vfs := { Vfs.markAllChunksDirty v.vfs with container := c } } :
      Vault).otherData = none := h.idle
    exact (Lasting.of_idle hidle).mpr hc
  have hio : ∀ io, Recorded w (v.vfs.container.withIo io) (v.vfs.container.withIo io).dataFile
      v.vfs.tree.nextChunkGen :=
    fun io => hrec.mono ⟨rfl, rfl, rfl⟩ (fun _ hm => hm) (.inl rfl) (le_refl _)
  unfold onContainer onVfs Vfs.onContainer Container.writeAnchor
  rw [wp_zoom, wp_zoom, wp_bind, wp_modify, wp_bind, wp_get]
  split
  · exact hlasting (hio _)
  · rw [wp_bind]
    refine Container.ioCall_spec (fun io => ?_) fun io => hlasting (hio io)
    rw [wp_modify]
    refine hlasting ⟨hrec.descending, fun g hg => ?_, fun g hg m hm => ?_, hrec.unmirrored⟩
    · rcases hg with hg | ⟨-, hg⟩
      · exact hrec.next g (.inl hg)
      · injection hg with hg
        exact le_of_eq hg.symm
    · rcases hg with hg | ⟨hw, hg⟩
      · exact hrec.kept g (.inl hg) m hm
      · injection hg with hg
        rw [← hg]
        exact h.current hw m hm

theorem abort_lasting (h : Copied w ms v) :
    wp abortAtomicRotation (fun _ v' => Lasting w v') (fun _ v' => Lasting w v') v := by
  unfold abortAtomicRotation
  rw [wp_bind, wp_get]
  split
  · exact h.lasting
  · rw [wp_bind]
    have hhead : Keeps (Copied w ms) (onHead Head.abortAtomicRotation) :=
      onHead_keeps fun _ _ h => h.putHead
    refine wp_mono (hhead v h) ?_ fun _ _ h' => h'.lasting
    intro _ v₁ h₁
    rw [wp_modify]
    obtain ⟨d, hd, hrec⟩ := h₁.original
    rw [hd]
    exact (Lasting.of_idle rfl).mpr
      (hrec.mono ⟨rfl, rfl, rfl⟩ (fun _ hm => hm) (.inl rfl) (le_refl _))

theorem rotateWith_lasting {io : CommitIo} {body : VaultM Unit} (h : MayRotate w v)
    (hms : ∀ m ∈ ms, Vouches w m v) (hbody : Keeps (Copied w ms) body) :
    wp (rotateWith io body) (fun _ v' => Lasting w v') (fun _ v' => Lasting w v') v := by
  unfold rotateWith
  rw [wp_bind]
  refine wp_mono (begin_copied h hms) ?_ fun _ _ h' => h'
  intro _ v₁ h₁
  rw [wp_bind, wp_attempt]
  refine wp_mono (hbody v₁ h₁) ?_ ?_
  · intro _ v₂ h₂
    show wp (do commitAtomicRotation io; afterRotation io.anchor) _ _ v₂
    rw [wp_bind]
    exact wp_mono (commit_settled h₂) (fun _ _ h₃ => afterRotation_lasting h₃) fun _ _ h₃ => h₃
  · intro e v₂ h₂
    show wp (do abortAtomicRotation; throw e) _ _ v₂
    rw [wp_bind]
    exact wp_mono (abort_lasting h₂) (fun _ _ h₃ => h₃) fun _ _ h₃ => h₃

theorem MayRotate.withFloor {n : Nat} (h : MayRotate w v) :
    MayRotate w { v with vfs := { v.vfs with cowFloorGen := n } } :=
  ⟨h.idle, h.lasting, h.current⟩

theorem checkRotation_mayRotate {credentials : List SlotCredential} :
    Keeps (MayRotate w) (checkRotation credentials) := by
  refine Keeps.bind ?_ fun _ => Keeps.bind (Keeps.modify fun _ h => h.withFloor) fun _ => ?_
  · exact Keeps.zoom fun v h => Vfs.wp_ensureWritable.mpr ⟨fun _ => h, fun _ => h⟩
  · refine Keeps.bind Keeps.get fun _ => Keeps.ite Keeps.throw (Keeps.ite Keeps.throw ?_)
    exact Keeps.fromExcept

theorem rotateMvk_lasting {credentials : List SlotCredential} {newMvk nonce : Nat} {io : CommitIo}
    (h : MayRotate w v) :
    wp (rotateMvk credentials newMvk nonce io) (fun _ v' => Lasting w v') (fun _ v' => Lasting w v')
      v := by
  unfold rotateMvk
  rw [wp_bind]
  refine wp_mono (checkRotation_mayRotate v h) ?_ fun _ _ h' => h'.lasting
  intro _ v₁ h₁
  exact @rotateWith_lasting w v₁ [] io _ h₁ nofun doRotation_copied

theorem checkRotationDeniable_mayRotate (h : MayRotate w v) :
    wp checkRotationDeniable (fun m v' => MayRotate w v' ∧ Vouches w m v')
      (fun _ v' => Lasting w v') v := by
  unfold checkRotationDeniable onVfs
  rw [wp_bind, wp_zoom, Vfs.wp_ensureWritable]
  refine ⟨fun _ => h.lasting, fun _ => ?_⟩
  rw [wp_bind, wp_modify, wp_bind, wp_get]
  split
  · exact h.lasting
  have hrec := (Lasting.of_idle h.idle).mp h.lasting
  have hopen : ∀ {c : Container}, Container.Opening v.vfs.container c →
      Recorded w c c.dataFile v.vfs.tree.nextChunkGen := by
    intro c hc
    rw [hc]
    exact hrec.mono ⟨rfl, rfl, rfl⟩ (fun _ hm => hm) (.inl rfl) (le_refl _)
  have hlasting : ∀ {c : Container}, Container.Opening v.vfs.container c → Lasting w { v with
      vfs := { v.vfs with container := c, cowFloorGen := v.vfs.tree.nextChunkGen } } := by
    intro c hc
    have hidle : ({ v with vfs := { v.vfs with
      container := c, cowFloorGen := v.vfs.tree.nextChunkGen } } : Vault).otherData = none := h.idle
    exact (Lasting.of_idle hidle).mpr (hopen hc)
  unfold onContainer onVfs Vfs.onContainer Container.readMetadata
  rw [wp_zoom, wp_zoom, wp_bind]
  refine Container.ioCall_spec (fun io => ?_) fun io => hlasting rfl
  rw [wp_bind, wp_get]
  -- the metadata that is read vouches for the record
  have hfound : ∀ {c : Container} {m : Metadata}, Container.Opening v.vfs.container c →
      (v.vfs.container.live = some m ∨
        (v.vfs.container.live = none ∧ v.vfs.container.mirror = some m)) →
      MayRotate w { v with vfs := { v.vfs with container := c, cowFloorGen := v.vfs.tree.nextChunkGen } } ∧
      Vouches w m { v with vfs := { v.vfs with container := c, cowFloorGen := v.vfs.tree.nextChunkGen } } := by
    intro c m hc hm
    have hsame : SameRecord v.vfs.container c := by
      rw [hc]
      exact ⟨rfl, rfl, rfl⟩
    refine ⟨⟨h.idle, hlasting hc, fun hw m' hm' => h.current hw m' ?_⟩,
      ⟨fun g hg => hrec.kept g (hsame.marked.mp hg) m (Vfs.regions_of_read hm),
        fun hw => h.current hw m hm⟩⟩
    have hm' : c.live = some m' ∨ (c.live = none ∧ c.mirror = some m') := hm'
    rwa [hc.live, hc.mirror] at hm'
  split
  · next m hlive => exact hfound rfl (.inl hlive)
  · next hlive =>
      split
      · exact hlasting rfl
      · next m hmirror =>
          rw [wp_bind, wp_attempt]
          exact Container.ioCall_spec (fun _ => hfound rfl (.inr ⟨hlive, hmirror⟩))
            fun _ => hlasting rfl

theorem rotateMvkDeniable_lasting {accepts : Argon2idParams → Bool} {newSalt newMvk nonce : Nat}
    {fill : Fin deniableSlotCount → Nat} {keep : List KeepSlot} {io : CommitIo}
    (h : MayRotate w v) :
    wp (rotateMvkDeniable accepts newSalt newMvk nonce fill keep io) (fun _ v' => Lasting w v')
      (fun _ v' => Lasting w v') v := by
  unfold rotateMvkDeniable
  rw [wp_bind]
  refine wp_mono (checkRotationDeniable_mayRotate h) ?_ fun _ _ h' => h'
  rintro m v₁ ⟨h₁, hm⟩
  rw [wp_bind, wp_get]
  refine @rotateWith_lasting w v₁ [m] io _ h₁ (fun m' hm' => ?_)
    (doRotationDeniable_copied (List.mem_singleton.mpr rfl))
  rw [List.mem_singleton.mp hm']
  exact hm

/-! ## Header writes and crashes -/

theorem left_of_wp {m : VaultM α} {P : Vault → Prop} (h : wp m (fun _ => P) (fun _ => P) v) :
    P (left m v) := by
  unfold wp at h
  unfold left
  cases hm : m v with
  | ok a v' =>
      rw [hm] at h
      exact h
  | error e v' =>
      rw [hm] at h
      exact h

theorem refresh_lasting {anchor : Fault} :
    Keeps (Lasting w) (refreshAnchorAfterHeaderWrite anchor) := by
  refine Keeps.get_bind fun v h => ?_
  split
  · exact h
  split
  · exact h
  · next g hg =>
      unfold onContainer onVfs Vfs.onContainer Container.writeAnchor
      rw [wp_zoom, wp_zoom, wp_bind, wp_modify, wp_bind, wp_get]
      split
      · exact h.mono ⟨rfl, rfl, rfl⟩ (fun _ hm => hm) (.inl rfl) (le_refl _)
      · rw [wp_bind]
        refine Container.ioCall_spec (fun io => ?_) fun io =>
          h.mono ⟨rfl, rfl, rfl⟩ (fun _ hm => hm) (.inl rfl) (le_refl _)
        rw [wp_modify]
        exact h.mono ⟨rfl, hg.symm, rfl⟩ (fun _ hm => hm) (.inl rfl) (le_refl _)

theorem persistHeader_lasting {nonce : Nat} {anchor : Fault} :
    Keeps (Lasting w) (persistHeader nonce anchor) := by
  refine Keeps.bind Keeps.get fun _ => Keeps.bind (onHead_keeps fun _ _ h => h.putHead) fun _ => ?_
  exact Keeps.ite refresh_lasting Keeps.pure

theorem mem_crashed {d : DataFile} {live : Nat} {slot : ChunkId → Nat}
    (hm : some m ∈ (d.crashed live slot).regions) : some m ∈ d.regions := by
  have hlive : d.liveMaybe.getD live d.live ∈ d.live :: d.liveMaybe := by
    rw [List.getD_eq_getElem?_getD]
    cases hget : d.liveMaybe[live]? with
    | none => exact List.mem_cons_self
    | some r => exact List.mem_cons_of_mem _ (List.mem_of_getElem? hget)
  have hm : some m ∈ [d.liveMaybe.getD live d.live, d.mirror, d.liveMaybe.getD live d.live] := hm
  simp only [List.mem_cons, List.not_mem_nil, or_false] at hm
  show some m ∈ d.live :: d.mirror :: d.liveMaybe
  have hfound : some m = d.liveMaybe.getD live d.live → some m ∈ d.live :: d.mirror :: d.liveMaybe := by
    intro h
    rw [h]
    rcases List.mem_cons.mp hlive with hl | hl
    · exact List.mem_cons.mpr (.inl hl)
    · exact List.mem_cons_of_mem _ (List.mem_cons_of_mem _ hl)
  rcases hm with hm | hm | hm
  · exact hfound hm
  · exact List.mem_cons_of_mem _ (List.mem_cons.mpr (.inl hm))
  · exact hfound hm

theorem afterCrash_lasting {env : Env} {live : Nat} {slot : ChunkId → Nat} (h : Lasting w v)
    (hcrash : v.afterCrash env live slot = some v') : Lasting w v' := by
  unfold afterCrash at hcrash
  split at hcrash
  · cases hcrash
  · next head hhead =>
      simp only at hcrash
      split at hcrash
      · cases hcrash
      · next vfs hopen =>
          injection hcrash with hcrash
          rw [← hcrash]
          refine (Lasting.of_idle rfl).mpr (Vfs.open_recorded (n := v.vfs.tree.nextChunkGen) ?_ hopen)
          exact h.mono ⟨rfl, rfl, rfl⟩ (fun m hm => mem_crashed hm) (.inl rfl) (le_refl _)

/-! ## Runs -/

/-- The handle is on the vault file: no rotation is in flight, and none was lost
inside its commit. -/
def Idle (v : Vault) : Prop := v.otherData = none

/-- The metadata a reopen would read is as new as the counter in memory. -/
def Current (v : Vault) : Prop := ∀ m, (v.vfs.container.live = some m ∨
  (v.vfs.container.live = none ∧ v.vfs.container.mirror = some m)) →
    v.vfs.tree.nextChunkGen ≤ m.generation

/-- The condition on a step. Where the anchor matters (`w`), a rotation also
needs a vault that is flushed, and a header is written only at the vault's own
place. -/
def Steady (w : Prop) (v : Vault) : Act → Prop
  | .vfs call => v.Idle ∧ Vfs.MirrorFollows (v.vfs.withEnv call.env).container
  | .persistHeader .. => w → v.Idle ∧ v.head.Home
  | .rotateMvk .. => v.Idle ∧ (w → v.Current)
  | .rotateMvkDeniable .. => v.Idle ∧ (w → v.Current)
  | _ => True

/-- Every step of the run meets the condition in the state it starts from. -/
def SteadyRun (w : Prop) (v : Vault) : List Act → Prop
  | [] => True
  | a :: rest => Steady w v a ∧ ∀ v', v.act a = some v' → SteadyRun w v' rest

/-- A check of the condition that runs. -/
def steadily (v : Vault) : Act → Bool
  | .vfs call => v.otherData.isNone &&
      (decide (v.vfs.container.header.versionMajor = versionMajorV1) && call.env.useV3ForFreshVault
        || decide (v.vfs.container.header.versionMajor ≥ versionMajorV2)
        || v.vfs.container.mirror.isNone)
  | .persistHeader .. => v.otherData.isNone && v.head.atHome
  | .rotateMvk .. | .rotateMvkDeniable .. => v.otherData.isNone &&
      (v.vfs.container.live.orElse fun _ => v.vfs.container.mirror).elim true fun m =>
        decide (v.vfs.tree.nextChunkGen ≤ m.generation)
  | _ => true

def runsSteadily (v : Vault) : List Act → Bool
  | [] => true
  | a :: rest => v.steadily a && (v.act a).elim true fun v' => v'.runsSteadily rest

theorem steadily_steady {a : Act} (h : v.steadily a = true) : Steady w v a := by
  have hcurrent : (v.vfs.container.live.orElse fun _ => v.vfs.container.mirror).elim true (fun m =>
      decide (v.vfs.tree.nextChunkGen ≤ m.generation)) = true → v.Current := by
    intro hc m hm
    have hfound : (v.vfs.container.live.orElse fun _ => v.vfs.container.mirror) = some m := by
      rcases hm with hm | ⟨hl, hm⟩
      · rw [hm]
        rfl
      · rw [hl]
        exact hm
    rw [hfound] at hc
    exact of_decide_eq_true hc
  cases a with
  | vfs call =>
      unfold steadily at h
      simp only [Bool.and_eq_true, Bool.or_eq_true, decide_eq_true_eq, Option.isNone_iff_eq_none] at h
      exact ⟨h.1, or_assoc.mp h.2⟩
  | rotateMvk =>
      unfold steadily at h
      rw [Bool.and_eq_true, Option.isNone_iff_eq_none] at h
      exact ⟨h.1, fun _ => hcurrent h.2⟩
  | rotateMvkDeniable =>
      unfold steadily at h
      rw [Bool.and_eq_true, Option.isNone_iff_eq_none] at h
      exact ⟨h.1, fun _ => hcurrent h.2⟩
  | persistHeader =>
      unfold steadily at h
      rw [Bool.and_eq_true, Option.isNone_iff_eq_none] at h
      exact fun _ => ⟨h.1, Head.atHome_iff.mp h.2⟩
  | upgradeHeaderToV3 => exact trivial
  | crash => exact trivial

theorem runsSteadily_steady {acts : List Act} (h : v.runsSteadily acts = true) :
    SteadyRun w v acts := by
  induction acts generalizing v with
  | nil => exact trivial
  | cons a rest ih =>
      unfold runsSteadily at h
      rw [Bool.and_eq_true] at h
      refine ⟨steadily_steady h.1, fun v' hact => ih ?_⟩
      have hrest := h.2
      rw [hact] at hrest
      exact hrest

theorem Lasting.withFaults {env : Env} {io : List HeaderFault} (h : Lasting w v) (hidle : v.Idle) :
    Lasting w ((v.withEnv env).withHeaderIo io) := by
  have hidle' : ((v.withEnv env).withHeaderIo io).otherData = none := hidle
  refine (Lasting.of_idle hidle').mpr ?_
  exact ((Lasting.of_idle hidle).mp h).mono ⟨rfl, rfl, rfl⟩ (fun _ hm => hm) (.inl rfl) (le_refl _)

theorem act_lasting {a : Act} (h : Lasting w v) (hsteady : Steady w v a)
    (hact : v.act a = some v') : Lasting w v' := by
  have hfaults : ∀ {env : Env} {io : List HeaderFault}, v.Idle ∧ (w → v.Current) →
      MayRotate w ((v.withEnv env).withHeaderIo io) :=
    fun hcond => ⟨hcond.1, h.withFaults hcond.1, hcond.2⟩
  have hio : ∀ {io : List HeaderFault}, Lasting w (v.withHeaderIo io) :=
    fun {io} => h.mono ⟨rfl, rfl, rfl⟩ (fun _ hm => hm) (.inl rfl) (le_refl _)
  cases a with
  | vfs call =>
      injection hact with hact
      rw [← hact]
      obtain ⟨hidle, hfollows⟩ := hsteady
      have hidle' : ({ v with vfs := v.vfs.step call } : Vault).otherData = none := hidle
      refine (Lasting.of_idle hidle').mpr (Vfs.step_inSession ⟨?_, hfollows⟩).recorded
      exact ((Lasting.of_idle hidle).mp h).mono ⟨rfl, rfl, rfl⟩ (fun _ hm => hm) (.inl rfl)
        (le_refl _)
  | persistHeader nonce io anchor =>
      injection hact with hact
      rw [← hact]
      exact left_of_wp (persistHeader_lasting _ hio)
  | upgradeHeaderToV3 io =>
      injection hact with hact
      rw [← hact]
      have hhead : Keeps (Lasting w) (onHead Head.upgradeHeaderToV3) :=
        onHead_keeps fun _ _ h => h.putHead
      exact left_of_wp (hhead _ hio)
  | rotateMvk credentials newMvk nonce env io commit =>
      injection hact with hact
      rw [← hact]
      exact left_of_wp (rotateMvk_lasting (hfaults hsteady))
  | rotateMvkDeniable accepts newSalt newMvk nonce fill keep env io commit =>
      injection hact with hact
      rw [← hact]
      exact left_of_wp (rotateMvkDeniable_lasting (hfaults hsteady))
  | crash env live slot => exact afterCrash_lasting h hact

theorem run_lasting {acts : List Act} (h : Lasting w v) (hsteady : SteadyRun w v acts)
    (hrun : v.run acts = some v') : Lasting w v' := by
  induction acts generalizing v with
  | nil =>
      injection hrun with hrun
      exact hrun ▸ h
  | cons a rest ih =>
      unfold run at hrun
      cases hact : v.act a with
      | none =>
          rw [hact] at hrun
          cases hrun
      | some v₁ =>
          rw [hact] at hrun
          exact ih (act_lasting h hsteady.1 hact) (hsteady.2 v₁ hact) hrun

theorem created_lasting {header : Header} {deniable : Bool} {format : MetadataFormat} {head : Head}
    {anchored : Bool} : Lasting w (created header deniable format head anchored) := by
  have hmarked : ∀ g, (created header deniable format head anchored).vfs.container.Marked w g →
      g = 1 := by
    intro g hg
    rcases hg with hg | ⟨-, hg⟩
    · cases hg
    · have hg : (if anchored = true then some 1 else none) = some g := hg
      split at hg
      · injection hg with hg
        exact hg.symm
      · cases hg
  refine ⟨List.Pairwise.nil, fun g hg => le_of_eq (hmarked g hg), fun g hg m hm => ?_, fun _ => rfl⟩
  have hm : some m ∈ [some Metadata.empty, none, some Metadata.empty] := hm
  simp only [List.mem_cons, List.not_mem_nil, or_false, reduceCtorEq, false_or] at hm
  rw [hmarked g hg]
  rcases hm with hm | hm
  · injection hm with hm
    rw [hm]
    exact le_refl _
  · injection hm with hm
    rw [hm]
    exact le_refl _

end Vault

theorem Anchor.compare_of_lt {anchorGen metadataGen : Nat} (h : metadataGen < anchorGen) :
    Anchor.compare anchorGen metadataGen = .rollbackDetected anchorGen metadataGen := by
  unfold Anchor.compare
  rw [if_neg (by omega), if_pos h]

/-- In a steady run every commit that returned has a generation above those
before it, so an anchor at a later one exposes an earlier one; and an attached
anchor is at the generation of the flush that last wrote. -/
theorem committed_generations_ordered {header : Header} {deniable : Bool} {format : MetadataFormat}
    {head : Head} {anchored : Bool} {acts : List Vault.Act} {v : Vault}
    (hrun : (Vault.created header deniable format head anchored).run acts = some v)
    (hsteady : Vault.SteadyRun False (Vault.created header deniable format head anchored) acts) :
    v.vfs.container.doneGenerations.Pairwise (· > ·) ∧
      (∀ later earlier, [later, earlier].Sublist v.vfs.container.doneGenerations →
        Anchor.compare later earlier = .rollbackDetected later earlier) ∧
      ∀ env s', Vfs.flush (v.vfs.withEnv env) = .ok () s' → s' = v.vfs.withEnv env ∨
        ∃ g, s'.container.doneGenerations.head? = some g ∧
          (v.vfs.container.anchor.isSome = true → s'.container.anchor = some g) := by
  have hlast := Vault.run_lasting Vault.created_lasting hsteady hrun
  refine ⟨hlast.descending, fun later earlier hsub => ?_, fun env s' hflush => ?_⟩
  · have hpair := hlast.descending.sublist hsub
    rw [List.pairwise_cons] at hpair
    exact Anchor.compare_of_lt (hpair.1 earlier (List.mem_singleton.mpr rfl))
  · have hspec := wp_ok Vfs.flush_anchored hflush
    exact hspec

/-! ## A stale mirror -/

/-- A LUKSBOX1 vault with one passphrase. -/
def oldVault (anchored : Bool) : Vault :=
  Vault.created ⟨1, false, false, 4096, 12288⟩ false .v2
    (Head.created 5 7 false (Function.update (fun _ => none) 0 (some ⟨1, false, 20, 5⟩))) anchored

/-- Surroundings with `LUKSBOX_FORMAT_V2` set. -/
def keepOldFormat : Env := { Env.quiet with useV3ForFreshVault := false }

/-- A flush upgrades the vault in memory and writes a mirror, and the process is
killed before the header is persisted. The next session keeps the old format:
its flushes leave the mirror alone, and when one of them is torn, what the
vault comes back with is the first session's metadata. -/
def staleMirrorActs : List Vault.Act :=
  [ .vfs ⟨.mkdir 1 "a", Env.quiet⟩, .vfs ⟨.flush, Env.quiet⟩,
    .crash keepOldFormat 0 (fun _ => 0),
    .vfs ⟨.mkdir 1 "b", keepOldFormat⟩, .vfs ⟨.flush, keepOldFormat⟩,
    .vfs ⟨.mkdir 1 "c", keepOldFormat⟩,
    .vfs ⟨.flush, { keepOldFormat with io := [.ok, .torn Slot.garbage 0] }⟩,
    .crash keepOldFormat 0 (fun _ => 0) ]

/-- The flush after that commits a generation again that another flush committed. -/
theorem stale_mirror_repeats_generation :
    ∃ v, (oldVault false).run (staleMirrorActs ++
        [.vfs ⟨.mkdir 1 "d", keepOldFormat⟩, .vfs ⟨.flush, keepOldFormat⟩]) = some v ∧
      v.vfs.container.doneGenerations = [3, 3, 2] ∧
      ¬ v.vfs.container.doneGenerations.Pairwise (· > ·) := by
  have hrun : ((oldVault false).run (staleMirrorActs ++
      [.vfs ⟨.mkdir 1 "d", keepOldFormat⟩, .vfs ⟨.flush, keepOldFormat⟩])).map
        (fun v => v.vfs.container.doneGenerations) = some [3, 3, 2] := by decide +kernel
  obtain ⟨v, hv, hgens⟩ := Option.map_eq_some_iff.mp hrun
  refine ⟨v, hv, hgens, ?_⟩
  rw [hgens]
  decide

/-- Two sessions that let the upgrade happen. -/
def upgradedActs : List Vault.Act :=
  [ .vfs ⟨.mkdir 1 "a", Env.quiet⟩, .vfs ⟨.flush, Env.quiet⟩,
    .crash Env.quiet 0 (fun _ => 0),
    .vfs ⟨.mkdir 1 "b", Env.quiet⟩, .vfs ⟨.flush, Env.quiet⟩ ]

/-- There the second commit is above the first. -/
theorem upgraded_generations_ordered :
    ∃ v, (oldVault false).run upgradedActs = some v ∧
      v.vfs.container.doneGenerations = [3, 2] ∧
      v.vfs.container.doneGenerations.Pairwise (· > ·) := by
  have hrun : ((oldVault false).run upgradedActs).map
      (fun v => v.vfs.container.doneGenerations) = some [3, 2] := by decide +kernel
  obtain ⟨v, hv, hgens⟩ := Option.map_eq_some_iff.mp hrun
  refine ⟨v, hv, hgens, ?_⟩
  exact (committed_generations_ordered hv (Vault.runsSteadily_steady (by decide +kernel))).1

end Luksbox
