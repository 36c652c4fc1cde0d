import Luksbox.Model.Rotation
import Luksbox.Proofs.ContainerSteps
import Luksbox.Proofs.Steps

/-!
# A rotation that fails

Until the rename a rotation works on a copy. `InFlight` is what holds while it
does: the saved fields are those of before, and the committed file, its mirrors
and its data are as they were. Every step of the body keeps it, and from any
such state an abort leads back to where the rotation began. The commit takes
the saved fields out before its first fallible call, so what follows depends on
which call fails.
-/

namespace Luksbox

open Lib

/-! ## What header writes into the copy leave alone -/

structure HeadKeeps (h h' : Head) : Prop where
  rotation : h'.rotation = h.rotation
  handle : h'.handle = h.handle
  path : h'.path = h.path
  files : h.handle = .rotating → h'.files .committed = h.files .committed
  mirrors : h.path = .rotating → h'.mirrors .committed = h.mirrors .committed
  deniable : h'.deniable.isSome = h.deniable.isSome

namespace HeadKeeps

variable {h h₁ h₂ : Head}

theorem refl : HeadKeeps h h := ⟨rfl, rfl, rfl, fun _ => rfl, fun _ => rfl, rfl⟩

theorem trans (hk : HeadKeeps h h₁) (hk' : HeadKeeps h₁ h₂) : HeadKeeps h h₂ where
  rotation := hk'.rotation.trans hk.rotation
  handle := hk'.handle.trans hk.handle
  path := hk'.path.trans hk.path
  files := fun hr => (hk'.files (hk.handle.trans hr)).trans (hk.files hr)
  mirrors := fun hr => (hk'.mirrors (hk.path.trans hr)).trans (hk.mirrors hr)
  deniable := hk'.deniable.trans hk.deniable

theorem storeHeader (bytes : HeaderBytes) : HeadKeeps h (h.storeHeader bytes) where
  rotation := rfl
  handle := rfl
  path := rfl
  files := by
    intro hr
    show Function.update h.files h.handle (some bytes) .committed = _
    rw [hr, Function.update_of_ne (by decide)]
  mirrors := fun _ => rfl
  deniable := rfl

theorem storeMirror (bytes : HeaderBytes) : HeadKeeps h (h.storeMirror bytes) where
  rotation := rfl
  handle := rfl
  path := rfl
  files := fun _ => rfl
  mirrors := by
    intro hr
    show Function.update h.mirrors h.path (some bytes) .committed = _
    rw [hr, Function.update_of_ne (by decide)]
  deniable := rfl

end HeadKeeps

namespace Head

variable {h₀ h : Head} {α : Type}

/-- Wherever the program stops, it has kept what `HeadKeeps` lists. -/
abbrev Keeping (h₀ : Head) (m : HeadM α) (h : Head) : Prop :=
  wp m (fun _ h' => HeadKeeps h₀ h') (fun _ h' => HeadKeeps h₀ h') h

theorem keeping_bind {β : Type} {m : HeadM α} {f : α → HeadM β} (hm : Keeping h₀ m h)
    (hf : ∀ a h', HeadKeeps h₀ h' → Keeping h₀ (f a) h') : Keeping h₀ (m >>= f) h := by
  rw [Keeping, wp_bind]
  exact wp_mono hm (fun a h' hk => hf a h' hk) fun _ _ hk => hk

theorem nextFault_keeping (hk : HeadKeeps h₀ h) : Keeping h₀ nextFault h := by
  unfold Keeping nextFault wp
  simp only
  cases h.io with
  | nil => exact hk
  | cons f rest => exact hk.trans ⟨rfl, rfl, rfl, fun _ => rfl, fun _ => rfl, rfl⟩

theorem ioStep_keeping (hk : HeadKeeps h₀ h) : Keeping h₀ ioStep h := by
  unfold ioStep
  refine keeping_bind (nextFault_keeping hk) fun f h' hk' => ?_
  cases f <;> exact hk'

theorem writeLiveHeader_keeping {bytes : HeaderBytes} (hk : HeadKeeps h₀ h) :
    Keeping h₀ (writeLiveHeader bytes) h := by
  unfold writeLiveHeader
  refine keeping_bind (nextFault_keeping hk) fun f h' hk' => ?_
  cases f with
  | ok => exact hk'.trans (HeadKeeps.storeHeader _)
  | before => exact hk'
  | torn applied parses => exact hk'.trans (HeadKeeps.storeHeader _)
  | after => exact hk'.trans (HeadKeeps.storeHeader _)

theorem writeHeaderMirror_keeping {bytes : HeaderBytes} (hk : HeadKeeps h₀ h) :
    Keeping h₀ (writeHeaderMirror bytes) h := by
  unfold writeHeaderMirror
  refine keeping_bind (nextFault_keeping hk) fun f h' hk' => ?_
  cases f with
  | ok => exact hk'.trans (HeadKeeps.storeMirror _)
  | before => exact hk'
  | torn applied parses => exact hk'
  | after => exact hk'.trans (HeadKeeps.storeMirror _)

theorem writeStandardHeader_keeping (hk : HeadKeeps h₀ h) : Keeping h₀ writeStandardHeader h := by
  unfold writeStandardHeader
  rw [Keeping, wp_bind, wp_get]
  have hrest : ∀ h', HeadKeeps h₀ h' → Keeping h₀ (do
      writeLiveHeader (.standard h.image); ioStep; ioStep) h' := by
    intro h' hk'
    refine keeping_bind (writeLiveHeader_keeping hk') fun _ h₁ hk₁ => ?_
    exact keeping_bind (ioStep_keeping hk₁) fun _ h₂ hk₂ => ioStep_keeping hk₂
  split
  · exact keeping_bind (writeHeaderMirror_keeping hk) fun _ h' hk' => hrest h' hk'
  · exact hrest h hk

theorem persistStandard_keeping (hk : HeadKeeps h₀ h) : Keeping h₀ persistStandard h := by
  unfold persistStandard
  rw [Keeping, wp_bind, wp_get]
  have hrest : ∀ h', HeadKeeps h₀ h' → Keeping h₀ (persistMoved h.headerGeneration) h' := by
    intro h' hk'
    unfold persistMoved
    rw [Keeping, wp_bind, wp_attempt]
    refine wp_mono (writeStandardHeader_keeping hk') ?_ ?_
    · intro _ h₁ hk₁
      exact hk₁.trans ⟨rfl, rfl, rfl, fun _ => rfl, fun _ => rfl, rfl⟩
    · intro e h₁ hk₁
      exact hk₁.trans ⟨rfl, rfl, rfl, fun _ => rfl, fun _ => rfl, rfl⟩
  simp only
  split
  · cases hn : nextHeaderGeneration h.headerGeneration with
    | none => exact hk
    | some g => exact hrest _ (hk.trans ⟨rfl, rfl, rfl, fun _ => rfl, fun _ => rfl, rfl⟩)
  · exact hrest h hk

theorem persistDeniable_keeping {den : DeniableState} {nonce : Nat} (hd : h₀.deniable.isSome = true)
    (hk : HeadKeeps h₀ h) : Keeping h₀ (persistDeniable den nonce) h := by
  unfold persistDeniable
  rw [Keeping, wp_bind, wp_get]
  cases hr : den.resealed h.mvk nonce with
  | error e => exact hk
  | ok den' =>
      refine keeping_bind (writeLiveHeader_keeping hk) fun _ h₁ hk₁ => ?_
      refine keeping_bind (ioStep_keeping hk₁) fun _ h₂ hk₂ => ?_
      refine hk₂.trans ⟨rfl, rfl, rfl, fun _ => rfl, fun _ => rfl, ?_⟩
      show true = h₂.deniable.isSome
      rw [hk₂.deniable, hd]

theorem persistHeader_keeping {nonce : Nat} (hk : HeadKeeps h₀ h) :
    Keeping h₀ (persistHeader nonce) h := by
  unfold persistHeader
  rw [Keeping, wp_bind, wp_get]
  split
  · exact hk
  cases hd : h.deniable with
  | none => exact persistStandard_keeping hk
  | some den =>
      refine persistDeniable_keeping ?_ hk
      rw [← hk.deniable, hd]
      rfl

theorem rotateDeniableEnvelope_keeping {accepts : Argon2idParams → Bool}
    {newSalt newMvk nonce : Nat} {fill : Fin deniableSlotCount → Nat} {keep : List KeepSlot}
    (hk : HeadKeeps h₀ h) :
    Keeping h₀ (rotateDeniableEnvelope accepts newSalt newMvk nonce fill keep) h := by
  unfold rotateDeniableEnvelope
  rw [Keeping, wp_bind, wp_get]
  cases hd : h.deniable with
  | none => exact hk
  | some den =>
      simp only
      cases hr : den.rotate accepts newSalt newMvk nonce fill keep with
      | error e => exact hk
      | ok den' =>
          refine hk.trans ⟨rfl, rfl, rfl, fun _ => rfl, fun _ => rfl, ?_⟩
          rw [hd]
          rfl

/-! ## The commit -/

theorem wp_nextFault {Q : HeaderFault → Head → Prop} {E : Failure → Head → Prop} {f : HeaderFault}
    {rest : List HeaderFault} (hio : h.io = f :: rest) :
    wp nextFault Q E h ↔ Q f { h with io := rest } := by
  unfold nextFault wp
  simp only [hio]

theorem wp_ioStep {Q : Unit → Head → Prop} {E : Failure → Head → Prop} {f : HeaderFault}
    {rest : List HeaderFault} (hio : h.io = f :: rest) :
    wp ioStep Q E h ↔
      (f = .ok → Q () { h with io := rest }) ∧ (f ≠ .ok → E ioFailed { h with io := rest }) := by
  unfold ioStep
  rw [wp_bind, wp_nextFault hio]
  cases f with
  | ok => exact ⟨fun hq => ⟨fun _ => hq, fun hn => absurd rfl hn⟩, fun hq => hq.1 rfl⟩
  | before => exact ⟨fun he => ⟨nofun, fun _ => he⟩, fun he => he.2 nofun⟩
  | torn applied parses => exact ⟨fun he => ⟨nofun, fun _ => he⟩, fun he => he.2 nofun⟩
  | after => exact ⟨fun he => ⟨nofun, fun _ => he⟩, fun he => he.2 nofun⟩

/-- A vault whose rotation has been committed. -/
structure HasCommitted (h h' : Head) : Prop where
  handle : h'.handle = .committed
  path : h'.path = .committed
  rotation : h'.rotation = none
  header : h'.files .committed = h.files .rotating
  noCopy : h'.files .rotating = none
  mirror : h'.mirrors .committed = none ∨ h'.mirrors .committed = h.mirrors .committed
  headerDirty : h'.headerDirty = true
  mvk : h'.mvk = h.mvk
  headerSalt : h'.headerSalt = h.headerSalt
  versionMajor : h'.versionMajor = h.versionMajor
  generation : h'.headerGeneration = h.headerGeneration
  keyslots : h'.keyslots = h.keyslots
  deniable : h'.deniable = h.deniable

theorem removeStaleMirror_spec :
    wp removeStaleMirror
      (fun _ h' => ∃ io, h' = { h with io := io } ∨
        h' = { h with io := io, mirrors := Function.update h.mirrors .committed none })
      (fun _ _ => False) h := by
  unfold removeStaleMirror
  rw [wp_bind]
  unfold nextFault wp
  simp only
  cases h.io with
  | nil => exact ⟨h.io, .inr rfl⟩
  | cons f rest => cases f <;> first | exact ⟨rest, .inr rfl⟩ | exact ⟨rest, .inl rfl⟩

/-- The commit, by the call that fails first. -/
theorem commit_spec {state : RotationState} {f s r p x : HeaderFault}
    (hrot : h.rotation = some state) (hio : h.io = [f, s, r, p, x]) :
    wp commitAtomicRotation
      (fun _ h' => f = .ok ∧ s = .ok ∧ r = .ok ∧ p = .ok ∧ HasCommitted h h')
      (fun _ h' =>
        ((f ≠ .ok ∨ s ≠ .ok) ∧ ∃ io, h' = { h with rotation := none, io := io }) ∨
        (f = .ok ∧ s = .ok ∧ r ≠ .ok ∧ ∃ io, h' = { h with io := io }) ∨
        (f = .ok ∧ s = .ok ∧ r = .ok ∧ p ≠ .ok)) h := by
  unfold commitAtomicRotation
  rw [wp_bind, wp_get, hrot]
  simp only
  rw [wp_bind, wp_modify, wp_bind]
  refine (wp_ioStep (show Head.io { h with rotation := none } = _ from hio)).2
    ⟨fun hf => ?_, fun hf => .inl ⟨.inl hf, _, rfl⟩⟩
  rw [wp_bind]
  refine (wp_ioStep rfl).2 ⟨fun hs => ?_, fun hs => .inl ⟨.inr hs, _, rfl⟩⟩
  rw [wp_bind, wp_attempt]
  refine (wp_ioStep rfl).2 ⟨fun hr => ?_, fun hr => ?_⟩
  · simp only
    rw [wp_bind, wp_modify, wp_bind]
    refine (wp_ioStep (show Head.io (renamed _) = [p, x] from rfl)).2
      ⟨fun hp => ?_, fun hp => .inr (.inr ⟨hf, hs, hr, hp⟩)⟩
    rw [wp_bind, wp_modify, wp_bind]
    refine wp_mono removeStaleMirror_spec ?_ fun _ _ hno => hno.elim
    rintro _ h' ⟨io, rfl | rfl⟩
    · exact ⟨hf, hs, hr, hp, rfl, rfl, rfl, rfl, rfl, .inr rfl, rfl, rfl, rfl, rfl, rfl, rfl, rfl⟩
    · exact ⟨hf, hs, hr, hp, rfl, rfl, rfl, rfl, rfl, .inl rfl, rfl, rfl, rfl, rfl, rfl, rfl, rfl⟩
  · simp only
    rw [wp_bind, wp_modify, wp_throw]
    refine .inr (.inl ⟨hf, hs, hr, [p, x], ?_⟩)
    rw [← hrot]

end Head

/-! ## The rotation in flight -/

namespace Vault

/-- The data of the file at the vault's own path. -/
def originalData (v : Vault) : DataFile :=
  match v.head.handle with
  | .committed => v.vfs.container.dataFile
  | .rotating => v.otherData.getD v.vfs.container.dataFile

/-- No rotation has been begun. -/
structure AtRest (v : Vault) : Prop where
  handle : v.head.handle = .committed
  path : v.head.path = .committed
  rotation : v.head.rotation = none
  other : v.otherData = none

/-- The vault file at its path, byte for byte. -/
structure SameOriginal (v v' : Vault) : Prop where
  header : v'.head.files .committed = v.head.files .committed
  mirror : v'.head.mirrors .committed = v.head.mirrors .committed
  data : v'.originalData = v.originalData

/-- The container describes the vault as it did before the rotation. -/
structure PreRotation (v v' : Vault) : Prop where
  rest : AtRest v'
  mvk : v'.vfs.container.mvk = v.vfs.container.mvk
  headerSalt : v'.vfs.container.headerSalt = v.vfs.container.headerSalt
  versionMajor : v'.vfs.container.header.versionMajor = v.vfs.container.header.versionMajor
  generation : v'.head.headerGeneration = v.head.headerGeneration
  keyslots : v'.head.keyslots = v.head.keyslots
  headerDirty : v'.head.headerDirty = v.head.headerDirty
  deniable : v'.head.deniable = v.head.deniable
  data : v'.vfs.container.dataFile = v.vfs.container.dataFile
  tree : v'.vfs.tree = v.vfs.tree

/-- The original is as it was, and the container is back on it or an abort
brings it back. -/
def RolledBack (v v' : Vault) : Prop :=
  SameOriginal v v' ∧
    (PreRotation v v' ∨ ∃ v'', abortAtomicRotation v' = .ok () v'' ∧ PreRotation v v'')

/-- A rotation of `v` is working on the copy. -/
structure InFlight (v w : Vault) : Prop where
  rotation : w.head.rotation = some v.headOf.saved
  handle : w.head.handle = .rotating
  path : w.head.path = .rotating
  files : w.head.files .committed = v.head.files .committed
  mirrors : w.head.mirrors .committed = v.head.mirrors .committed
  deniable : w.head.deniable.isSome = v.head.deniable.isSome
  other : w.otherData = some v.vfs.container.dataFile
  tree : w.vfs.tree = v.vfs.tree

section InFlight

variable {v w : Vault} {α : Type}

/-- Wherever the program stops, the rotation is still in flight. -/
abbrev Flying (v : Vault) (m : VaultM α) (w : Vault) : Prop :=
  wp m (fun _ w' => InFlight v w') (fun _ w' => InFlight v w') w

theorem flying_bind {β : Type} {m : VaultM α} {f : α → VaultM β} (hm : Flying v m w)
    (hf : ∀ a w', InFlight v w' → Flying v (f a) w') : Flying v (m >>= f) w := by
  rw [Flying, wp_bind]
  exact wp_mono hm (fun a w' hw => hf a w' hw) fun _ _ hw => hw

theorem onContainer_flying {m : ContainerM α} (hw : InFlight v w) : Flying v (onContainer m) w := by
  unfold Flying onContainer onVfs Vfs.onContainer
  rw [wp_zoom, wp_zoom]
  have hkeep : ∀ c, InFlight v { w with vfs := { w.vfs with container := c } } := fun c =>
    ⟨hw.rotation, hw.handle, hw.path, hw.files, hw.mirrors, hw.deniable, hw.other, hw.tree⟩
  exact wp_intro (fun _ c _ => hkeep c) fun _ c _ => hkeep c

theorem onHead_flying {m : HeadM α} (hw : InFlight v w)
    (hm : ∀ h, Head.Keeping h m h) : Flying v (onHead m) w := by
  unfold Flying onHead
  rw [wp_zoom]
  have hkeep : ∀ h', HeadKeeps w.headOf h' → InFlight v (w.putHead h') := fun h' hk =>
    ⟨hk.rotation.trans hw.rotation, hk.handle.trans hw.handle, hk.path.trans hw.path,
      (hk.files hw.handle).trans hw.files, (hk.mirrors hw.path).trans hw.mirrors,
      hk.deniable.trans hw.deniable, hw.other, hw.tree⟩
  exact wp_mono (hm w.headOf) (fun _ h' hk => hkeep h' hk) fun _ h' hk => hkeep h' hk

theorem scrub_flying (hw : InFlight v w) : Flying v scrubUnreferencedChunkSlots w := by
  unfold scrubUnreferencedChunkSlots
  rw [Flying, wp_bind, wp_get]
  exact onContainer_flying hw

theorem doRotation_flying {credentials : List SlotCredential} {newMvk nonce : Nat}
    (hw : InFlight v w) : Flying v (doRotation credentials newMvk nonce) w := by
  unfold doRotation
  rw [Flying, wp_bind, wp_get]
  refine flying_bind (onContainer_flying hw) fun _ w₁ hw₁ => ?_
  refine flying_bind (scrub_flying hw₁) fun _ w₂ hw₂ => ?_
  refine flying_bind (onContainer_flying hw₂) fun _ w₃ hw₃ => ?_
  rw [Flying, wp_bind]
  cases buildSlots newMvk credentials fun _ => none with
  | error e => exact hw₃
  | ok table =>
      refine flying_bind (onHead_flying hw₃ fun h => ?_) fun _ w₄ hw₄ => ?_
      · exact HeadKeeps.refl.trans ⟨rfl, rfl, rfl, fun _ => rfl, fun _ => rfl, rfl⟩
      · exact onHead_flying hw₄ fun h => Head.persistHeader_keeping HeadKeeps.refl

theorem doRotationDeniable_flying {accepts : Argon2idParams → Bool} {newSalt newMvk nonce : Nat}
    {fill : Fin deniableSlotCount → Nat} {keep : List KeepSlot} {m : Metadata}
    {old : FileId → SubKey} (hw : InFlight v w) :
    Flying v (doRotationDeniable accepts newSalt newMvk nonce fill keep m old) w := by
  unfold doRotationDeniable
  refine flying_bind (onHead_flying hw fun h => ?_) fun _ w₁ hw₁ => ?_
  · exact Head.rotateDeniableEnvelope_keeping HeadKeeps.refl
  rw [Flying, wp_bind, wp_get]
  refine flying_bind (onContainer_flying hw₁) fun _ w₂ hw₂ => ?_
  refine flying_bind (scrub_flying hw₂) fun _ w₃ hw₃ => ?_
  refine flying_bind (onContainer_flying hw₃) fun _ w₄ hw₄ => ?_
  exact onHead_flying hw₄ fun h => Head.persistHeader_keeping HeadKeeps.refl

/-- A rotation in flight has not touched the original. -/
theorem InFlight.sameOriginal (hv : AtRest v) (hw : InFlight v w) : SameOriginal v w where
  header := hw.files
  mirror := hw.mirrors
  data := by
    unfold originalData
    rw [hw.handle, hw.other, hv.handle]
    rfl

/-- An abort leads back to where the rotation began. -/
theorem InFlight.abort (hv : AtRest v) (hw : InFlight v w) :
    wp abortAtomicRotation (fun _ w' => PreRotation v w' ∧ SameOriginal v w') (fun _ _ => False)
      w := by
  have hden : v.head.deniable.or w.head.deniable = v.head.deniable := by
    have hsome := hw.deniable
    cases hd : v.head.deniable with
    | some d => rfl
    | none =>
        rw [hd] at hsome
        cases hwd : w.head.deniable with
        | none => rfl
        | some d => rw [hwd] at hsome; cases hsome
  unfold abortAtomicRotation
  rw [wp_bind, wp_get, hw.rotation]
  simp only
  unfold onHead Head.abortAtomicRotation
  have hrot : w.headOf.rotation = some v.headOf.saved := hw.rotation
  rw [wp_bind, wp_zoom, wp_bind, wp_get, hrot]
  simp only
  rw [wp_set, wp_modify]
  have hother : (w.putHead (w.headOf.restored v.headOf.saved)).otherData =
      some v.vfs.container.dataFile := hw.other
  simp only [hother]
  refine ⟨⟨⟨rfl, rfl, rfl, rfl⟩, rfl, rfl, rfl, rfl, rfl, rfl, hden, rfl, hw.tree⟩, ?_, ?_, ?_⟩
  · show Function.update w.head.files .rotating none .committed = _
    rw [Function.update_of_ne (by decide)]
    exact hw.files
  · show Function.update w.head.mirrors .rotating none .committed = _
    rw [Function.update_of_ne (by decide)]
    exact hw.mirrors
  · unfold originalData
    rw [hv.handle]
    rfl

/-- The vault file and the container, both as before. -/
def Back (v v' : Vault) : Prop := PreRotation v v' ∧ SameOriginal v v'

theorem Back.symm (hv : AtRest v) (h : Back v w) : Back w v where
  left := ⟨hv, h.1.mvk.symm, h.1.headerSalt.symm, h.1.versionMajor.symm, h.1.generation.symm,
    h.1.keyslots.symm, h.1.headerDirty.symm, h.1.deniable.symm, h.1.data.symm, h.1.tree.symm⟩
  right := ⟨h.2.header.symm, h.2.mirror.symm, h.2.data.symm⟩

theorem Back.rolledBack (h : Back v w) : RolledBack v w := ⟨h.2, .inl h.1⟩

/-- Being rolled back to `v` and to a state that is as `v` was is the same. -/
theorem Back.rolledBack_iff {u : Vault} (hv : AtRest v) (h : Back v u) :
    RolledBack v w ↔ RolledBack u w := by
  have hpre : ∀ {a b x : Vault}, Back a b → PreRotation b x → PreRotation a x := by
    intro a b x hab hx
    exact ⟨hx.rest, hx.mvk.trans hab.1.mvk, hx.headerSalt.trans hab.1.headerSalt,
      hx.versionMajor.trans hab.1.versionMajor, hx.generation.trans hab.1.generation,
      hx.keyslots.trans hab.1.keyslots, hx.headerDirty.trans hab.1.headerDirty,
      hx.deniable.trans hab.1.deniable, hx.data.trans hab.1.data, hx.tree.trans hab.1.tree⟩
  have hroll : ∀ {a b : Vault}, Back a b → RolledBack b w → RolledBack a w := by
    rintro a b hab ⟨hsame, hback⟩
    refine ⟨⟨hsame.header.trans hab.2.header, hsame.mirror.trans hab.2.mirror,
      hsame.data.trans hab.2.data⟩, ?_⟩
    rcases hback with hp | ⟨x, hx, hp⟩
    · exact .inl (hpre hab hp)
    · exact .inr ⟨x, hx, hpre hab hp⟩
  exact ⟨fun hr => hroll (h.symm hv) hr, fun hr => hroll h hr⟩

theorem InFlight.rolledBack (hv : AtRest v) (hw : InFlight v w) : RolledBack v w := by
  obtain ⟨⟨⟩, w', hrun, hpre, -⟩ := exists_of_wp (hw.abort hv)
  exact ⟨hw.sameOriginal hv, .inr ⟨w', hrun, hpre⟩⟩

/-- Off its own file and with nothing to go back to. -/
theorem not_rolledBack (hhandle : w.head.handle = .rotating) (hrot : w.head.rotation = none) :
    ¬ RolledBack v w := by
  rintro ⟨-, hpre | ⟨w', hrun, hpre⟩⟩
  · have := hpre.rest.handle
    rw [hhandle] at this
    cases this
  · have hsame : abortAtomicRotation w = .ok () w := by
      have hw : wp abortAtomicRotation (fun _ w' => w' = w) (fun _ _ => False) w := by
        unfold abortAtomicRotation
        rw [wp_bind, wp_get, hrot]
        exact rfl
      obtain ⟨⟨⟩, w'', hrun', rfl⟩ := exists_of_wp hw
      exact hrun'
    rw [hsame] at hrun
    injection hrun with _ hrun
    have := hpre.rest.handle
    rw [← hrun, hhandle] at this
    cases this

end InFlight

/-! ## The whole call -/

section Rotate

variable {v w : Vault}

theorem begin_spec (hv : AtRest v) :
    wp beginAtomicRotation (fun _ w => InFlight v w) (fun _ w => Back v w) v := by
  unfold beginAtomicRotation onHead Head.beginAtomicRotation
  rw [wp_bind, wp_zoom, wp_bind, wp_get]
  have hback : ∀ io, Back v (v.putHead { v.headOf with io := io }) := fun io =>
    ⟨⟨⟨hv.handle, hv.path, hv.rotation, hv.other⟩, rfl, rfl, rfl, rfl, rfl, rfl, rfl, rfl, rfl⟩,
      rfl, rfl, rfl⟩
  have hrot : v.headOf.rotation = none := hv.rotation
  rw [hrot]
  simp only [Option.isSome_none, Bool.false_eq_true, if_false]
  split
  · exact hback v.head.io
  rw [wp_bind]
  have hstep : wp Head.ioStep (fun _ h' => ∃ io, h' = { v.headOf with io := io })
      (fun _ h' => ∃ io, h' = { v.headOf with io := io }) v.headOf := by
    unfold Head.ioStep
    rw [wp_bind]
    unfold Head.nextFault wp
    simp only
    cases v.headOf.io with
    | nil => exact ⟨v.headOf.io, rfl⟩
    | cons f rest => cases f <;> exact ⟨rest, rfl⟩
  refine wp_mono hstep ?_ ?_
  · rintro _ h' ⟨io, rfl⟩
    rw [wp_modify, wp_modify]
    have hhandle : v.headOf.handle = .committed := hv.handle
    refine ⟨rfl, rfl, rfl, ?_, rfl, rfl, rfl, rfl⟩
    show Function.update v.head.files .rotating (v.head.files v.head.handle) .committed = _
    rw [Function.update_of_ne (by decide)]
  · rintro e h' ⟨io, rfl⟩
    exact hback io

theorem commit_flying {io : CommitIo} (hv : AtRest v) (hw : InFlight v w) :
    wp (commitAtomicRotation io)
      (fun _ _ => io.flush = .ok ∧ io.sync = .ok)
      (fun _ w' => ((io.flush ≠ .ok ∨ io.sync ≠ .ok) ∧ ¬ RolledBack v w') ∨
        (io.flush = .ok ∧ io.sync = .ok ∧ (io.parent = .ok → RolledBack v w'))) w := by
  unfold commitAtomicRotation
  rw [wp_bind, wp_modify, wp_bind, wp_attempt]
  unfold onHead
  rw [wp_zoom]
  refine wp_mono (Head.commit_spec hw.rotation rfl) ?_ ?_
  · rintro _ h' ⟨hf, hs, -⟩
    exact ⟨hf, hs⟩
  · intro e h' hcases
    simp only
    rw [wp_bind, wp_modify, wp_throw]
    rcases hcases with ⟨hbad, steps, rfl⟩ | ⟨hf, hs, hr, steps, rfl⟩ | ⟨hf, hs, hr, hp⟩
    · -- taken out and never put back
      refine .inl ⟨hbad, ?_⟩
      have hne : w.head.handle ≠ .committed := by rw [hw.handle]; decide
      refine not_rolledBack ?_ ?_
      · show (if w.head.handle = .committed then _ else _ : Vault).head.handle = _
        rw [if_neg hne]
        exact hw.handle
      · show (if w.head.handle = .committed then _ else _ : Vault).head.rotation = _
        rw [if_neg hne]
        rfl
    · refine .inr ⟨hf, hs, fun _ => InFlight.rolledBack hv ?_⟩
      have hne : w.head.handle ≠ .committed := by rw [hw.handle]; decide
      show InFlight v (if w.head.handle = .committed then _ else _ : Vault)
      rw [if_neg hne]
      exact ⟨hw.rotation, hw.handle, hw.path, hw.files, hw.mirrors, hw.deniable, hw.other, hw.tree⟩
    · exact .inr ⟨hf, hs, fun h => absurd h hp⟩

theorem afterRotation_returns :
    wp (afterRotation .ok) (fun _ _ => True) (fun _ _ => False) w := by
  unfold afterRotation
  rw [wp_bind, wp_modify, wp_bind, wp_get]
  unfold onContainer onVfs Vfs.onContainer Container.writeAnchor
  rw [wp_zoom, wp_zoom, wp_bind, wp_modify, wp_bind, wp_get]
  split
  · exact trivial
  · rw [wp_bind]
    unfold Container.ioCall
    rw [wp_bind]
    exact trivial

/-- The part of a rotation before its commit. -/
def attemptIn (body : VaultM Unit) : VaultM Unit := do
  beginAtomicRotation
  body

/-- The commit is reached and its `flush` or `fsync` fails. -/
def FailsAtSync (reached : Prop) (io : CommitIo) : Prop :=
  reached ∧ (io.flush ≠ .ok ∨ io.sync ≠ .ok)

theorem rotateWith_spec {io : CommitIo} {body : VaultM Unit} (hv : AtRest v)
    (hbody : ∀ w, InFlight v w → Flying v body w) (hparent : io.parent = .ok)
    (hanchor : io.anchor = .ok) :
    wp (rotateWith io body)
      (fun _ _ => ¬ FailsAtSync (∃ w, attemptIn body v = .ok () w) io)
      (fun _ w => RolledBack v w ↔ ¬ FailsAtSync (∃ w, attemptIn body v = .ok () w) io) v := by
  unfold rotateWith
  rw [wp_bind]
  have hb := begin_spec hv
  refine wp_intro ?_ ?_
  · intro a w₁ hrun₁
    have hw₁ := wp_ok hb hrun₁
    rw [wp_bind, wp_attempt]
    refine wp_intro ?_ ?_
    · intro a₂ w₂ hrun₂
      have hw₂ := wp_ok (hbody w₁ hw₁) hrun₂
      have hreached : ∃ w, attemptIn body v = .ok () w := by
        refine ⟨w₂, ?_⟩
        unfold attemptIn
        rw [bind_ok hrun₁]
        exact hrun₂
      unfold finishRotation
      simp only
      rw [wp_bind]
      refine wp_mono (commit_flying hv hw₂) ?_ ?_
      · rintro _ w₃ ⟨hf, hs⟩
        have hnot : ¬ FailsAtSync (∃ w, attemptIn body v = .ok () w) io := by
          rintro ⟨-, hbad | hbad⟩
          · exact hbad hf
          · exact hbad hs
        rw [hanchor]
        exact wp_mono afterRotation_returns (fun _ _ _ => hnot) fun _ _ hno => hno.elim
      · rintro e w₃ (⟨hbad, hnot⟩ | ⟨hf, hs, hroll⟩)
        · exact ⟨fun hr => absurd hr hnot, fun hno => absurd ⟨hreached, hbad⟩ hno⟩
        · refine ⟨fun _ hbad => ?_, fun _ => hroll hparent⟩
          rcases hbad.2 with hbad | hbad
          · exact hbad hf
          · exact hbad hs
    · intro e w₂ hrun₂
      have hw₂ := wp_error (hbody w₁ hw₁) hrun₂
      have hnot : ¬ FailsAtSync (∃ w, attemptIn body v = .ok () w) io := by
        rintro ⟨⟨w, hw⟩, -⟩
        unfold attemptIn at hw
        rw [bind_ok hrun₁, hrun₂] at hw
        cases hw
      unfold finishRotation
      simp only
      rw [wp_bind]
      refine wp_mono (hw₂.abort hv) ?_ fun _ _ hno => hno.elim
      intro _ w₃ hback
      exact ⟨fun _ => hnot, fun _ => Back.rolledBack hback⟩
  · intro e w₁ hrun₁
    have hback := wp_error hb hrun₁
    refine ⟨fun _ hbad => ?_, fun _ => hback.rolledBack⟩
    obtain ⟨⟨w, hw⟩, -⟩ := hbad
    unfold attemptIn at hw
    have : (beginAtomicRotation >>= fun _ => body) v = .error e w₁ := by
      show EStateM.bind _ _ v = _
      unfold EStateM.bind
      rw [hrun₁]
    rw [this] at hw
    cases hw

/-! ## Standard and deniable -/

theorem back_of_vfs {s : Vfs} (hv : AtRest v)
    (hdata : s.container.dataFile = v.vfs.container.dataFile)
    (hmvk : s.container.mvk = v.vfs.container.mvk)
    (hsalt : s.container.headerSalt = v.vfs.container.headerSalt)
    (hheader : s.container.header = v.vfs.container.header) (htree : s.tree = v.vfs.tree) :
    Back v { v with vfs := s } := by
  refine ⟨⟨⟨hv.handle, hv.path, hv.rotation, hv.other⟩, hmvk, hsalt, by rw [hheader], rfl, rfl, rfl,
    rfl, hdata, htree⟩, rfl, rfl, ?_⟩
  unfold originalData
  rw [hv.handle]
  exact hdata

theorem checkRotation_back (credentials : List SlotCredential) (hv : AtRest v) :
    wp (checkRotation credentials) (fun _ u => Back v u) (fun _ u => Back v u) v := by
  have hfloor : ∀ n, Back v { v with vfs := { v.vfs with cowFloorGen := n } } := fun n =>
    back_of_vfs hv rfl rfl rfl rfl rfl
  have hself : Back v v := back_of_vfs hv rfl rfl rfl rfl rfl
  unfold checkRotation onVfs
  rw [wp_bind, wp_zoom, Vfs.wp_ensureWritable]
  refine ⟨fun _ => hself, fun _ => ?_⟩
  rw [wp_bind, wp_modify, wp_bind, wp_get]
  split
  · exact hfloor _
  split
  · exact hfloor _
  cases verifyCredentials v.head.keyslots v.vfs.container.mvk credentials with
  | ok _ => exact hfloor _
  | error e => exact hfloor _

theorem readMetadata_keeps {c : Container} :
    wp Container.readMetadata
      (fun _ c' => c'.dataFile = c.dataFile ∧ c'.mvk = c.mvk ∧ c'.headerSalt = c.headerSalt ∧
        c'.header = c.header)
      (fun _ c' => c'.dataFile = c.dataFile ∧ c'.mvk = c.mvk ∧ c'.headerSalt = c.headerSalt ∧
        c'.header = c.header) c := by
  unfold Container.readMetadata
  rw [wp_bind]
  refine Container.ioCall_spec (fun io => ?_) fun io => ⟨rfl, rfl, rfl, rfl⟩
  rw [wp_bind, wp_get]
  split
  · exact ⟨rfl, rfl, rfl, rfl⟩
  split
  · exact ⟨rfl, rfl, rfl, rfl⟩
  rw [wp_bind, wp_attempt]
  exact Container.ioCall_spec (fun io' => ⟨rfl, rfl, rfl, rfl⟩) fun io' => ⟨rfl, rfl, rfl, rfl⟩

theorem checkRotationDeniable_back (hv : AtRest v) :
    wp checkRotationDeniable (fun _ u => Back v u) (fun _ u => Back v u) v := by
  have hself : Back v v := back_of_vfs hv rfl rfl rfl rfl rfl
  unfold checkRotationDeniable onVfs
  rw [wp_bind, wp_zoom, Vfs.wp_ensureWritable]
  refine ⟨fun _ => hself, fun _ => ?_⟩
  rw [wp_bind, wp_modify, wp_bind, wp_get]
  split
  · exact back_of_vfs hv rfl rfl rfl rfl rfl
  unfold onContainer onVfs Vfs.onContainer
  rw [wp_zoom, wp_zoom]
  refine wp_mono readMetadata_keeps ?_ ?_
  · rintro _ c ⟨hd, hm, hs, hh⟩
    exact back_of_vfs hv hd hm hs hh rfl
  · rintro _ c ⟨hd, hm, hs, hh⟩
    exact back_of_vfs hv hd hm hs hh rfl

end Rotate

end Vault

/-- A call of `rotate_mvk` or of `rotate_mvk_deniable`. -/
inductive RotationCall where
  | standard (credentials : List Vault.SlotCredential) (newMvk nonce : Nat)
  | deniable (accepts : Argon2idParams → Bool) (newSalt newMvk nonce : Nat)
      (fill : Fin deniableSlotCount → Nat) (keep : List KeepSlot)

namespace RotationCall

def run (io : Vault.CommitIo) : RotationCall → VaultM Unit
  | .standard credentials newMvk nonce => Vault.rotateMvk credentials newMvk nonce io
  | .deniable accepts newSalt newMvk nonce fill keep =>
      Vault.rotateMvkDeniable accepts newSalt newMvk nonce fill keep io

/-- The same call up to its commit. -/
def uncommitted : RotationCall → VaultM Unit
  | .standard credentials newMvk nonce => do
      Vault.checkRotation credentials
      Vault.attemptIn (Vault.doRotation credentials newMvk nonce)
  | .deniable accepts newSalt newMvk nonce fill keep => do
      let m ← Vault.checkRotationDeniable
      let v ← get
      Vault.attemptIn
        (Vault.doRotationDeniable accepts newSalt newMvk nonce fill keep m v.vfs.container.fileKey)

/-- What is left of the call once its checks have passed from `v` to `u`. -/
theorem checked_spec {v u : Vault} {io : Vault.CommitIo} {body : VaultM Unit} (hv : v.AtRest)
    (hback : Vault.Back v u) (hbody : ∀ w, Vault.InFlight u w → Vault.Flying u body w)
    (hparent : io.parent = .ok) (hanchor : io.anchor = .ok) :
    wp (Vault.rotateWith io body)
      (fun _ _ => ¬ Vault.FailsAtSync (∃ w, Vault.attemptIn body u = .ok () w) io)
      (fun _ w => Vault.RolledBack v w ↔
        ¬ Vault.FailsAtSync (∃ w, Vault.attemptIn body u = .ok () w) io) u := by
  refine wp_mono (Vault.rotateWith_spec hback.1.rest hbody hparent hanchor) (fun _ _ h => h) ?_
  intro e w hiff
  rw [hback.rolledBack_iff hv]
  exact hiff

theorem run_spec {v : Vault} (hv : v.AtRest) (call : RotationCall) {io : Vault.CommitIo}
    (hparent : io.parent = .ok) (hanchor : io.anchor = .ok) :
    wp (call.run io) (fun _ _ => ¬ Vault.FailsAtSync (∃ w, call.uncommitted v = .ok () w) io)
      (fun _ w => Vault.RolledBack v w ↔
        ¬ Vault.FailsAtSync (∃ w, call.uncommitted v = .ok () w) io) v := by
  have hnever : ∀ {reached : Prop}, ¬ reached → ¬ Vault.FailsAtSync reached io :=
    fun hno hbad => hno hbad.1
  cases call with
  | standard credentials newMvk nonce =>
      show wp (Vault.rotateMvk credentials newMvk nonce io) _ _ v
      unfold Vault.rotateMvk
      rw [wp_bind]
      have hcheck := Vault.checkRotation_back credentials hv
      refine wp_intro ?_ ?_
      · intro a u hrun
        have hback := wp_ok hcheck hrun
        have heq : uncommitted (.standard credentials newMvk nonce) v =
            Vault.attemptIn (Vault.doRotation credentials newMvk nonce) u := bind_ok hrun
        rw [heq]
        exact checked_spec hv hback (fun w hw => Vault.doRotation_flying hw) hparent hanchor
      · intro e u hrun
        have hback := wp_error hcheck hrun
        refine ⟨fun _ => hnever ?_, fun _ => hback.rolledBack⟩
        rintro ⟨w, hw⟩
        have herr : uncommitted (.standard credentials newMvk nonce) v = .error e u := by
          show EStateM.bind _ _ v = _
          unfold EStateM.bind
          rw [hrun]
        rw [herr] at hw
        cases hw
  | deniable accepts newSalt newMvk nonce fill keep =>
      show wp (Vault.rotateMvkDeniable accepts newSalt newMvk nonce fill keep io) _ _ v
      unfold Vault.rotateMvkDeniable
      rw [wp_bind]
      have hcheck := Vault.checkRotationDeniable_back hv
      refine wp_intro ?_ ?_
      · intro m u hrun
        have hback := wp_ok hcheck hrun
        have heq : uncommitted (.deniable accepts newSalt newMvk nonce fill keep) v =
            Vault.attemptIn (Vault.doRotationDeniable accepts newSalt newMvk nonce fill keep m
              u.vfs.container.fileKey) u := bind_ok hrun
        rw [heq, wp_bind, wp_get]
        exact checked_spec hv hback (fun w hw => Vault.doRotationDeniable_flying hw) hparent hanchor
      · intro e u hrun
        have hback := wp_error hcheck hrun
        refine ⟨fun _ => hnever ?_, fun _ => hback.rolledBack⟩
        rintro ⟨w, hw⟩
        have herr : uncommitted (.deniable accepts newSalt newMvk nonce fill keep) v =
            .error e u := by
          show EStateM.bind _ _ v = _
          unfold EStateM.bind
          rw [hrun]
        rw [herr] at hw
        cases hw

end RotationCall

/-- A rotation that returns an error has left the original vault as it was and
its container on it, or one abort away from it, exactly if it did not fail at
the `flush` or `fsync` of its commit. -/
theorem failed_rotation_rolls_back_iff {v : Vault} (hv : v.AtRest) (call : RotationCall)
    {io : Vault.CommitIo} (hparent : io.parent = .ok) (hanchor : io.anchor = .ok) :
    (∀ e v', call.run io v = .error e v' → v.RolledBack v') ↔
      ¬ ((∃ w, call.uncommitted v = .ok () w) ∧ (io.flush ≠ .ok ∨ io.sync ≠ .ok)) := by
  have hspec := call.run_spec hv hparent hanchor
  constructor
  · intro hall hbad
    cases hrun : call.run io v with
    | ok a w => exact wp_ok hspec hrun hbad
    | error e w => exact (wp_error hspec hrun).1 (hall e w hrun) hbad
  · intro hgood e w hrun
    exact (wp_error hspec hrun).2 hgood

/-! ## A rotation whose `fsync` fails -/

/-- A new LUKSBOX3 vault with one passphrase, credential 1, in slot 0. -/
def onePhraseVault : Vault where
  vfs := Vfs.fresh (Container.created ⟨3, false, false, 4096, 12288⟩ false 5 7) .v5
  head := {
    mvk := 5
    headerSalt := 7
    versionMajor := 3
    headerGeneration := 1
    keyslots := Function.update (fun _ => none) 0 (some ⟨1, false, 20, 5⟩)
    headerDirty := false
    deniable := none
    files := Function.update (fun _ => none) .committed (some (.standard ⟨5, 3, 1,
      Function.update (fun _ => none) 0 (some ⟨1, false, 20, 5⟩)⟩))
    mirrors := fun _ => none
    handle := .committed
    path := .committed
    rotation := none
    io := []
    stored := [] }
  otherData := none

def rotatePhrase : RotationCall := .standard [⟨0, 1, 21, true⟩] 6 0

def quietCommit : Vault.CommitIo := ⟨.ok, .ok, .ok, .ok, .ok, .ok⟩

theorem onePhraseVault_atRest : onePhraseVault.AtRest := ⟨rfl, rfl, rfl, rfl⟩

/-- The commit's `fsync` fails: the call returns an error with the container on
the `.rotating` copy, under the new key, and nothing to abort. -/
theorem failed_sync_not_rolled_back :
    ∃ e v', rotatePhrase.run { quietCommit with sync := .before } onePhraseVault = .error e v' ∧
      ¬ onePhraseVault.RolledBack v' :=
  ⟨_, _, rfl, Vault.not_rolledBack rfl rfl⟩

/-- A rename that fails can be undone. -/
theorem failed_rename_rolls_back :
    ∃ e v', rotatePhrase.run { quietCommit with rename := .before } onePhraseVault = .error e v' ∧
      onePhraseVault.RolledBack v' := by
  have hback : ∀ e v', rotatePhrase.run { quietCommit with rename := .before } onePhraseVault =
      .error e v' → onePhraseVault.RolledBack v' := by
    refine (failed_rotation_rolls_back_iff onePhraseVault_atRest rotatePhrase rfl rfl).2 ?_
    rintro ⟨-, hbad | hbad⟩
    · exact hbad rfl
    · exact hbad rfl
  exact ⟨_, _, rfl, hback _ _ rfl⟩

end Luksbox
