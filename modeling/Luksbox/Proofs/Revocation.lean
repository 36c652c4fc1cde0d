import Luksbox.Proofs.HeaderRuns

/-!
# Revocation on every open path

An open uses the live header, or the mirror when the live one does not parse.
A credential is revoked for good when neither copy accepts it. What may still
be accepted after a run is the table installed last, and every table whose
installation a crash has cut short since: its mirror may be on the disk already.

`MayOpen` collects the headers an open could come up with, whatever happens to
the live one later. Persisting writes both copies and a rotation deletes the
mirror, so both leave nothing of the tables before; a restore writes the live
header only.
-/

namespace Luksbox

open Lib

/-- A slot of the table answers to this credential. -/
def hasCredential (table : KeyTable) (credential : Nat) : Prop :=
  ∃ i k, table i = some k ∧ k.credential = credential

theorem HeaderImage.accepts.has {image : HeaderImage} {credential : Nat}
    (h : image.accepts credential) : hasCredential image.keyslots credential := by
  obtain ⟨i, k, hk, hc, -⟩ := h
  exact ⟨i, k, hk, hc⟩

/-- Bytes that are a LUKSBOX2+ header with this property, or no header. -/
def HeaderBytes.Only (P : HeaderImage → Prop) : HeaderBytes → Prop
  | .standard image => image.versionMajor ≥ versionMajorHeaderV2 ∧ P image
  | .deniable _ => False
  | .unparsable => True
  | .unauthentic => True

theorem HeaderBytes.Only.weaken {P P' : HeaderImage → Prop} (hsub : ∀ image, P image → P' image)
    {bytes : HeaderBytes} (hb : HeaderBytes.Only P bytes) : HeaderBytes.Only P' bytes := by
  cases bytes with
  | standard image => exact ⟨hb.1, hsub image hb.2⟩
  | deniable header => exact hb
  | unparsable => trivial
  | unauthentic => trivial

namespace Head

variable {h h' h₁ : Head}

/-- What an open finds at the vault's own path, in either copy. -/
def Found (h : Head) (bytes : HeaderBytes) : Prop :=
  h.files .committed = some bytes ∨ h.mirrors .committed = some bytes

/-! ## What a write leaves in each place -/

/-- Writes that put at most headers with `new` behind the handle and its mirror. -/
structure Put (new : HeaderImage → Prop) (h h' : Head) : Prop where
  handle : h'.handle = h.handle
  path : h'.path = h.path
  rotation : h'.rotation = h.rotation
  deniable : h'.deniable = h.deniable
  files : ∀ p b, h'.files p = some b →
    h.files p = some b ∨ p = h.handle ∧ HeaderBytes.Only new b
  mirrors : ∀ p b, h'.mirrors p = some b →
    h.mirrors p = some b ∨ p = h.path ∧ HeaderBytes.Only new b

variable {new : HeaderImage → Prop}

theorem Put.refl : Put new h h :=
  ⟨rfl, rfl, rfl, rfl, fun _ _ hb => .inl hb, fun _ _ hb => .inl hb⟩

theorem Put.trans (hp : Put new h h₁) (hp' : Put new h₁ h') : Put new h h' where
  handle := hp'.handle.trans hp.handle
  path := hp'.path.trans hp.path
  rotation := hp'.rotation.trans hp.rotation
  deniable := hp'.deniable.trans hp.deniable
  files := by
    intro p b hb
    rcases hp'.files p b hb with hb | ⟨rfl, hnew⟩
    · exact hp.files p b hb
    · exact .inr ⟨hp.handle, hnew⟩
  mirrors := by
    intro p b hb
    rcases hp'.mirrors p b hb with hb | ⟨rfl, hnew⟩
    · exact hp.mirrors p b hb
    · exact .inr ⟨hp.path, hnew⟩

theorem Put.fields {io : List HeaderFault} {g v : Nat} {d : Bool} {table : KeyTable} {m : Nat} :
    Put new h { h with
      io := io, headerGeneration := g, versionMajor := v, headerDirty := d, keyslots := table,
      mvk := m } :=
  ⟨rfl, rfl, rfl, rfl, fun _ _ hb => .inl hb, fun _ _ hb => .inl hb⟩

theorem put_storeHeader {bytes : HeaderBytes} (hb : HeaderBytes.Only new bytes) :
    Put new h (h.storeHeader bytes) := by
  refine ⟨rfl, rfl, rfl, rfl, fun p b hpb => ?_, fun _ _ hpb => .inl hpb⟩
  by_cases hp : p = h.handle
  · subst hp
    have heq : Function.update h.files h.handle (some bytes) h.handle = some b := hpb
    rw [Function.update_self] at heq
    injection heq with heq
    exact .inr ⟨rfl, heq ▸ hb⟩
  · have heq : Function.update h.files h.handle (some bytes) p = some b := hpb
    rw [Function.update_of_ne hp] at heq
    exact .inl heq

theorem put_storeMirror {bytes : HeaderBytes} (hb : HeaderBytes.Only new bytes) :
    Put new h (h.storeMirror bytes) := by
  refine ⟨rfl, rfl, rfl, rfl, fun _ _ hpb => .inl hpb, fun p b hpb => ?_⟩
  by_cases hp : p = h.path
  · subst hp
    have heq : Function.update h.mirrors h.path (some bytes) h.path = some b := hpb
    rw [Function.update_self] at heq
    injection heq with heq
    exact .inr ⟨rfl, heq ▸ hb⟩
  · have heq : Function.update h.mirrors h.path (some bytes) p = some b := hpb
    rw [Function.update_of_ne hp] at heq
    exact .inl heq

/-- A torn standard header is no header. -/
theorem tornBytes_only {applied : Nat → Bool} {parses : Bool} {old : Option HeaderBytes}
    {image : HeaderImage} :
    HeaderBytes.Only new (tornBytes applied parses old (.standard image)) := by
  unfold tornBytes
  split
  · next heq => cases heq
  · split <;> trivial

/-- Wherever the program stops, it has put at most headers with `new`. -/
abbrev Putting {α : Type} (new : HeaderImage → Prop) (m : HeadM α) (h₀ h : Head) : Prop :=
  wp m (fun _ h' => Put new h₀ h') (fun _ h' => Put new h₀ h') h

theorem putting_bind {α β : Type} {m : HeadM α} {f : α → HeadM β} {h₀ : Head}
    (hm : Putting new m h₀ h) (hf : ∀ a h', Put new h₀ h' → Putting new (f a) h₀ h') :
    Putting new (m >>= f) h₀ h := by
  rw [Putting, wp_bind]
  exact wp_mono hm (fun a h' hp => hf a h' hp) fun _ _ hp => hp

theorem ioStep_putting {h₀ : Head} (hp : Put new h₀ h) : Putting new ioStep h₀ h :=
  wp_step (hp.trans Put.fields) (hp.trans Put.fields)

theorem writeLiveHeader_putting {image : HeaderImage} {h₀ : Head}
    (hb : HeaderBytes.Only new (.standard image)) (hp : Put new h₀ h) :
    Putting new (writeLiveHeader (.standard image)) h₀ h := by
  unfold writeLiveHeader
  rw [Putting, wp_bind]
  apply wp_fault
  have hp' : Put new h₀ { h with io := h.io.tail } := hp.trans Put.fields
  split
  · exact hp'.trans (put_storeHeader hb)
  · exact hp'
  · exact hp'.trans (put_storeHeader tornBytes_only)
  · exact hp'.trans (put_storeHeader hb)

theorem writeHeaderMirror_putting {image : HeaderImage} {h₀ : Head}
    (hb : HeaderBytes.Only new (.standard image)) (hp : Put new h₀ h) :
    Putting new (writeHeaderMirror (.standard image)) h₀ h := by
  unfold writeHeaderMirror
  rw [Putting, wp_bind]
  apply wp_fault
  have hp' : Put new h₀ { h with io := h.io.tail } := hp.trans Put.fields
  split
  · exact hp'.trans (put_storeMirror hb)
  · exact hp'.trans (put_storeMirror hb)
  · exact hp'

theorem writeStandardHeader_putting {h₀ : Head} (hb : HeaderBytes.Only new (.standard h.image))
    (hp : Put new h₀ h) : Putting new writeStandardHeader h₀ h := by
  unfold writeStandardHeader
  rw [Putting, wp_bind, wp_get]
  have hlive : ∀ h', Put new h₀ h' → Putting new (do
      writeLiveHeader (.standard h.image); ioStep; ioStep) h₀ h' := by
    intro h' hp'
    refine putting_bind (writeLiveHeader_putting hb hp') fun _ h₁ hp₁ => ?_
    exact putting_bind (ioStep_putting hp₁) fun _ _ hp₂ => ioStep_putting hp₂
  split
  · exact putting_bind (writeHeaderMirror_putting hb hp) fun _ h' hp' => hlive h' hp'
  · exact hlive h hp

/-- The header a persist puts there carries the table in memory. -/
theorem persistHeader_putting {nonce : Nat} {h₀ : Head} (hden : h.deniable = none)
    (hv : h.versionMajor ≥ versionMajorHeaderV2) (hp : Put (·.keyslots = h.keyslots) h₀ h) :
    Putting (·.keyslots = h.keyslots) (persistHeader nonce) h₀ h := by
  unfold persistHeader
  rw [Putting, wp_bind, wp_get]
  split
  · exact hp
  rw [hden]
  show wp persistStandard _ _ h
  unfold persistStandard
  rw [wp_bind, wp_get]
  simp only
  have hrest : ∀ g, Putting (·.keyslots = h.keyslots) (persistMoved h.headerGeneration) h₀
      { h with headerGeneration := g } := by
    intro g
    unfold persistMoved
    rw [Putting, wp_bind, wp_attempt]
    have hb : HeaderBytes.Only (·.keyslots = h.keyslots)
        (.standard (image { h with headerGeneration := g })) := ⟨hv, rfl⟩
    refine wp_mono (writeStandardHeader_putting hb (hp.trans Put.fields)) ?_ ?_
    · exact fun _ _ hp' => hp'.trans Put.fields
    · exact fun _ _ hp' => hp'.trans Put.fields
  split
  · cases hn : nextHeaderGeneration h.headerGeneration with
    | none => exact hp
    | some g => exact hrest g
  · exact hrest h.headerGeneration

theorem restoreHeader_putting {versionMajor generation : Nat} {keyslots : KeyTable}
    (hv : versionMajor ≥ versionMajorHeaderV2) :
    Putting (·.keyslots = keyslots) (restoreHeaderAsNewState versionMajor generation keyslots)
      h h := by
  have hwrite : ∀ (image : HeaderImage) (v g : Nat), image.keyslots = keyslots →
      image.versionMajor ≥ versionMajorHeaderV2 →
      Putting (·.keyslots = keyslots) (do
        restoreHeaderBytes image
        modify fun h : Head =>
          { h with versionMajor := v, headerGeneration := g, keyslots := keyslots }) h h := by
    intro image v g hkeys himg
    have hbytes : Putting (·.keyslots = keyslots) (restoreHeaderBytes image) h h := by
      refine putting_bind (writeLiveHeader_putting ⟨himg, hkeys⟩ Put.refl) fun _ h₁ hp₁ => ?_
      exact putting_bind (ioStep_putting hp₁) fun _ _ hp₂ => hp₂.trans Put.fields
    exact putting_bind hbytes fun _ _ hp' => hp'.trans Put.fields
  unfold restoreHeaderAsNewState
  rw [Putting, wp_bind, wp_get]
  split
  · exact Put.refl
  split
  · simp only
    split
    · exact Put.refl
    · exact hwrite _ _ _ rfl (le_trans hv (le_max_left _ _))
  · exact hwrite _ _ _ rfl hv

/-! ## Rotation -/

/-- A session between two calls. -/
structure Rest (h : Head) : Prop where
  handle : h.handle = .committed
  path : h.path = .committed
  rotation : h.rotation = none
  deniable : h.deniable = none
  versionMajor : h.versionMajor ≥ versionMajorHeaderV2

/-- While the copy is worked on, the vault's own path is as it was, and the copy
holds the old header or the new table. -/
structure Copying (table : KeyTable) (h h₁ : Head) : Prop where
  handle : h₁.handle = .rotating
  path : h₁.path = .rotating
  deniable : h₁.deniable = none
  rotation : h₁.rotation = some h.saved
  files : ∀ b, h₁.files .committed = some b → h.files .committed = some b
  mirrors : ∀ b, h₁.mirrors .committed = some b → h.mirrors .committed = some b
  copy : ∀ b, h₁.files .rotating = some b →
    h.files .committed = some b ∨ b.Only (·.keyslots = table)

theorem Copying.put {table : KeyTable} (hc : Copying table h h₁)
    (hp : Put (·.keyslots = table) h₁ h') : Copying table h h' where
  handle := hp.handle.trans hc.handle
  path := hp.path.trans hc.path
  deniable := hp.deniable.trans hc.deniable
  rotation := hp.rotation.trans hc.rotation
  files := by
    intro b hb
    rcases hp.files _ b hb with hb | ⟨hno, -⟩
    · exact hc.files b hb
    · rw [hc.handle] at hno
      cases hno
  mirrors := by
    intro b hb
    rcases hp.mirrors _ b hb with hb | ⟨hno, -⟩
    · exact hc.mirrors b hb
    · rw [hc.path] at hno
      cases hno
  copy := by
    intro b hb
    rcases hp.files _ b hb with hb | ⟨-, hnew⟩
    · exact hc.copy b hb
    · exact .inr hnew

theorem beginAtomicRotation_copying (table : KeyTable) (hr : Rest h) :
    wp beginAtomicRotation
      (fun _ h₁ => Copying table h h₁ ∧ h₁.versionMajor = h.versionMajor ∧ h₁.io = h.io.tail)
      (fun _ h₁ => ∃ io, h₁ = { h with io := io }) h := by
  unfold beginAtomicRotation
  rw [wp_bind, wp_get]
  split
  · exact ⟨h.io, rfl⟩
  split
  · exact ⟨h.io, rfl⟩
  rw [wp_bind]
  apply wp_step
  · refine ⟨⟨rfl, rfl, hr.deniable, rfl, fun _ hb => hb, fun _ hb => hb, fun b hb => ?_⟩, rfl, rfl⟩
    left
    rw [← hr.handle]
    exact hb
  · exact ⟨h.io.tail, rfl⟩

/-- What a commit can bring to the vault's own path. -/
structure Exposed (h h' : Head) : Prop where
  files : ∀ b, h'.files .committed = some b →
    h.files .committed = some b ∨ h.files .rotating = some b
  mirrors : ∀ b, h'.mirrors .committed = some b → h.mirrors .committed = some b

theorem commitAtomicRotation_exposed :
    wp commitAtomicRotation (fun _ h' => Exposed h h') (fun _ h' => Exposed h h') h := by
  unfold commitAtomicRotation
  rw [wp_bind, wp_get]
  split
  · exact ⟨fun _ hb => .inl hb, fun _ hb => hb⟩
  rw [wp_bind, wp_modify, wp_bind]
  apply wp_step
  · rw [wp_bind]
    apply wp_step
    · rw [wp_bind, wp_attempt]
      apply wp_step
      · simp only
        rw [wp_bind, wp_modify, wp_bind]
        apply wp_step
        · rw [wp_bind, wp_modify, wp_bind]
          unfold removeStaleMirror
          rw [wp_bind]
          apply wp_fault
          split
          · exact ⟨fun _ hb => .inr hb, fun _ hb => nomatch hb⟩
          · exact ⟨fun _ hb => .inr hb, fun _ hb => hb⟩
        · exact ⟨fun _ hb => .inr hb, fun _ hb => hb⟩
      · exact ⟨fun _ hb => .inl hb, fun _ hb => hb⟩
    · exact ⟨fun _ hb => .inl hb, fun _ hb => hb⟩
  · exact ⟨fun _ hb => .inl hb, fun _ hb => hb⟩

/-- A rotation, wherever it stops: the vault's own path shows what it showed, or
the new table. -/
theorem rotateHeader_found {install : HeadM Unit} {fails : Bool} {nonce : Nat}
    {commit : List HeaderFault} {table : KeyTable} (hr : Rest h)
    (hinst : ∀ h₁, Copying table h h₁ → h₁.versionMajor = h.versionMajor →
      wp install (fun _ h₂ => Copying table h h₂ ∧ h₂.versionMajor ≥ versionMajorHeaderV2 ∧
        h₂.keyslots = table) (fun _ h₂ => Copying table h h₂) h₁) :
    wp (rotateHeader install fails nonce commit)
      (fun _ h' => ∀ b, h'.Found b → h.Found b ∨ b.Only (·.keyslots = table))
      (fun _ h' => ∀ b, h'.Found b → h.Found b ∨ b.Only (·.keyslots = table)) h := by
  unfold rotateHeader
  rw [wp_bind]
  refine wp_mono (beginAtomicRotation_copying table hr) ?_ ?_
  · rintro _ h₁ ⟨hc, hv, -⟩
    have hbody : wp (do
        install
        if fails then throw refused
        persistHeader nonce) (fun _ h' => Copying table h h') (fun _ h' => Copying table h h')
        h₁ := by
      rw [wp_bind]
      refine wp_mono (hinst h₁ hc hv) ?_ fun _ _ hc' => hc'
      rintro _ h₂ ⟨hc₂, hv₂, rfl⟩
      cases fails with
      | true => exact hc₂
      | false =>
          exact wp_mono (persistHeader_putting hc₂.deniable hv₂ Put.refl)
            (fun _ _ hp => hc₂.put hp) fun _ _ hp => hc₂.put hp
    rw [wp_bind, wp_attempt]
    refine wp_mono hbody ?_ ?_
    · intro _ h₂ hc₂
      have hexp : ∀ h', Exposed { h₂ with io := commit } h' →
          ∀ b, h'.Found b → h.Found b ∨ b.Only (·.keyslots = table) := by
        rintro h' he b (hb | hb)
        · rcases he.files b hb with hb | hb
          · exact .inl (.inl (hc₂.files b hb))
          · exact (hc₂.copy b hb).imp_left .inl
        · exact .inl (.inr (hc₂.mirrors b (he.mirrors b hb)))
      show wp (do modify fun h : Head => { h with io := commit }; commitAtomicRotation) _ _ h₂
      rw [wp_bind, wp_modify]
      exact wp_mono commitAtomicRotation_exposed (fun _ h' he => hexp h' he) fun _ h' he => hexp h' he
    · intro e h₂ hc₂
      show wp (do abortAtomicRotation; throw e) _ _ h₂
      unfold abortAtomicRotation
      rw [wp_bind, wp_bind, wp_get, hc₂.rotation]
      rintro b (hb | hb)
      · exact .inl (.inl (hc₂.files b hb))
      · exact .inl (.inr (hc₂.mirrors b hb))
  · rintro _ h₁ ⟨io, rfl⟩ b hb
    exact .inl hb

theorem installRotatedMvk_copying {newMvk : Nat} {table : KeyTable} (hr : Rest h)
    (hc : Copying table h h₁) (hv : h₁.versionMajor = h.versionMajor) :
    wp (installRotatedMvk newMvk table)
      (fun _ h₂ => Copying table h h₂ ∧ h₂.versionMajor ≥ versionMajorHeaderV2 ∧
        h₂.keyslots = table) (fun _ h₂ => Copying table h h₂) h₁ := by
  refine ⟨hc.put ?_, ?_, rfl⟩
  · exact ⟨rfl, rfl, rfl, rfl, fun _ _ hb => .inl hb, fun _ _ hb => .inl hb⟩
  · show h₁.versionMajor ≥ _
    rw [hv]
    exact hr.versionMajor

/-- A deniable rotation of a standard vault is refused. -/
theorem rotateDeniableEnvelope_copying {accepts : Argon2idParams → Bool}
    {newSalt newMvk nonce : Nat} {fill : Fin deniableSlotCount → Nat} {keep : List KeepSlot}
    {table : KeyTable} {Q : Unit → Head → Prop} (hc : Copying table h h₁) :
    wp (rotateDeniableEnvelope accepts newSalt newMvk nonce fill keep) Q
      (fun _ h₂ => Copying table h h₂) h₁ := by
  unfold rotateDeniableEnvelope
  rw [wp_bind, wp_get, hc.deniable]
  exact hc

/-! ## Calls -/

/-- Only memory has changed. -/
structure InMemory (h h' : Head) : Prop where
  rest : Rest h → Rest h'
  files : h'.files = h.files
  mirrors : h'.mirrors = h.mirrors

theorem InMemory.refl : InMemory h h := ⟨id, rfl, rfl⟩

theorem InMemory.found (hm : InMemory h h') {b : HeaderBytes} (hb : h'.Found b) : h.Found b := by
  unfold Found at hb ⊢
  rw [hm.files, hm.mirrors] at hb
  exact hb

abbrev MemoryOnly {α : Type} (m : HeadM α) (h : Head) : Prop :=
  wp m (fun _ h' => InMemory h h') (fun _ h' => InMemory h h') h

theorem setSlot_memory {idx : Nat} {slot : Option Keyslot} : MemoryOnly (setSlot idx slot) h := by
  unfold setSlot
  split
  · exact ⟨fun hr => ⟨hr.handle, hr.path, hr.rotation, hr.deniable, hr.versionMajor⟩, rfl, rfl⟩
  · exact InMemory.refl

theorem guardStandard_memory {α : Type} {m : HeadM α} (hm : MemoryOnly m h) :
    MemoryOnly (do guardStandard; m) h := by
  unfold guardStandard
  rw [MemoryOnly, wp_bind, wp_bind, wp_get]
  split
  · exact InMemory.refl
  · exact hm

theorem enroll_memory {credential salt : Nat} {derivedMvk : Bool} :
    MemoryOnly (enroll credential salt derivedMvk) h := by
  apply guardStandard_memory
  rw [MemoryOnly, wp_bind, wp_get]
  split
  · exact InMemory.refl
  · exact setSlot_memory

theorem updateAt_memory {idx credential salt : Nat} {derivedMvk : Bool} :
    MemoryOnly (updateAt idx credential salt derivedMvk) h := by
  apply guardStandard_memory
  rw [MemoryOnly, wp_bind, wp_get]
  exact setSlot_memory

theorem swapSlots_memory {a b : Nat} : MemoryOnly (swapSlots a b) h := by
  apply guardStandard_memory
  split
  · split
    · exact InMemory.refl
    · exact ⟨fun hr => ⟨hr.handle, hr.path, hr.rotation, hr.deniable, hr.versionMajor⟩, rfl, rfl⟩
  · exact InMemory.refl

theorem upgradeHeaderToV3_memory (hden : h.deniable = none) : MemoryOnly upgradeHeaderToV3 h := by
  unfold upgradeHeaderToV3
  rw [MemoryOnly, wp_bind, wp_get]
  split
  · exact InMemory.refl
  split
  · exact InMemory.refl
  rw [hden]
  simp only
  split
  · exact InMemory.refl
  · exact ⟨fun hr => ⟨hr.handle, hr.path, hr.rotation, hr.deniable,
      (by decide : versionMajorHeaderV3 ≥ versionMajorHeaderV2)⟩, rfl, rfl⟩

/-- The deniable calls refuse a standard vault. -/
theorem enrollDeniable_memory {accepts : Argon2idParams → Bool} {slotIdx : Nat}
    {credential : DeniableCredential} {material : DeniableMaterial} {seed : SlotSeed}
    (hden : h.deniable = none) :
    MemoryOnly (enrollDeniable accepts slotIdx credential material seed) h := by
  unfold enrollDeniable
  rw [MemoryOnly, wp_bind, wp_get, hden]
  exact InMemory.refl

theorem clearDeniableSlot_memory {slotIdx fill : Nat} (hden : h.deniable = none) :
    MemoryOnly (clearDeniableSlot slotIdx fill) h := by
  unfold clearDeniableSlot
  rw [MemoryOnly, wp_bind, wp_get, hden]
  exact InMemory.refl

/-- The table a call is about to install. -/
def installs (h : Head) : Op → Option KeyTable
  | .persistHeader _ => if h.headerDirty then some h.keyslots else none
  | .restoreHeader _ _ keyslots => some keyslots
  | .rotateMvk _ table _ _ => some table
  | _ => none

/-- A restored backup is a LUKSBOX2+ header. -/
def CurrentFormat : Op → Prop
  | .restoreHeader versionMajor _ _ => versionMajor ≥ versionMajorHeaderV2
  | _ => True

/-- A call, wherever it stops: what an open can find was there before or carries
the table being installed. -/
theorem exec_found {op : Op} (hr : Rest h) (hcf : CurrentFormat op) :
    wp (exec op)
      (fun _ h' => ∀ b, h'.Found b → h.Found b ∨ ∃ T, h.installs op = some T ∧
        b.Only (·.keyslots = T))
      (fun _ h' => ∀ b, h'.Found b → h.Found b ∨ ∃ T, h.installs op = some T ∧
        b.Only (·.keyslots = T)) h := by
  have hmem : ∀ m : HeadM Unit, MemoryOnly m h → wp m
      (fun _ h' => ∀ b, h'.Found b → h.Found b ∨ ∃ T, h.installs op = some T ∧
        b.Only (·.keyslots = T))
      (fun _ h' => ∀ b, h'.Found b → h.Found b ∨ ∃ T, h.installs op = some T ∧
        b.Only (·.keyslots = T)) h := by
    intro m hm
    exact wp_mono hm (fun _ _ hm _ hb => .inl (hm.found hb)) fun _ _ hm _ hb => .inl (hm.found hb)
  have hput : ∀ (T : KeyTable) h', h.installs op = some T → Put (·.keyslots = T) h h' →
      ∀ b, h'.Found b → h.Found b ∨ ∃ T, h.installs op = some T ∧ b.Only (·.keyslots = T) := by
    rintro T h' hT hp b (hb | hb)
    · rcases hp.files _ b hb with hb | ⟨-, hnew⟩
      · exact .inl (.inl hb)
      · exact .inr ⟨T, hT, hnew⟩
    · rcases hp.mirrors _ b hb with hb | ⟨-, hnew⟩
      · exact .inl (.inr hb)
      · exact .inr ⟨T, hT, hnew⟩
  cases op with
  | enroll credential salt derivedMvk => exact hmem _ enroll_memory
  | updateAt idx credential salt derivedMvk => exact hmem _ updateAt_memory
  | revokeSlot idx => exact hmem _ (guardStandard_memory setSlot_memory)
  | swapSlots a b => exact hmem _ swapSlots_memory
  | enrollDeniable accepts slotIdx credential material seed =>
      exact hmem _ (enrollDeniable_memory hr.deniable)
  | clearDeniableSlot slotIdx fill => exact hmem _ (clearDeniableSlot_memory hr.deniable)
  | upgradeHeaderToV3 =>
      apply hmem
      show MemoryOnly ((fun _ => ()) <$> upgradeHeaderToV3) h
      rw [MemoryOnly, wp_map]
      exact upgradeHeaderToV3_memory hr.deniable
  | persistHeader nonce =>
      by_cases hd : h.headerDirty = true
      · have hT : h.installs (.persistHeader nonce) = some h.keyslots := if_pos hd
        exact wp_mono (persistHeader_putting hr.deniable hr.versionMajor Put.refl)
          (fun _ h' hp => hput _ h' hT hp) fun _ h' hp => hput _ h' hT hp
      · show wp (persistHeader nonce) _ _ h
        unfold persistHeader
        rw [wp_bind, wp_get, if_pos (by simpa using hd)]
        exact fun _ hb => .inl hb
  | restoreHeader versionMajor generation keyslots =>
      exact wp_mono (restoreHeader_putting hcf) (fun _ h' hp => hput _ h' rfl hp)
        fun _ h' hp => hput _ h' rfl hp
  | rotateMvk newMvk table fails commit =>
      have himp : ∀ h' : Head, (∀ b, h'.Found b → h.Found b ∨ b.Only (·.keyslots = table)) →
          ∀ b, h'.Found b → h.Found b ∨
            ∃ T, h.installs (.rotateMvk newMvk table fails commit) = some T ∧
              b.Only (·.keyslots = T) := by
        intro h' hall b hb
        exact (hall b hb).imp_right fun hnew => ⟨table, rfl, hnew⟩
      exact wp_mono
        (rotateHeader_found hr fun h₁ hc hv => installRotatedMvk_copying hr hc hv)
        (fun _ h' hall => himp h' hall) fun _ h' hall => himp h' hall
  | rotateMvkDeniable accepts newSalt newMvk nonce fill keep fails commit =>
      -- refused, so nothing is ever written
      show wp (rotateHeader _ fails (nonce + 1) commit) _ _ h
      unfold rotateHeader
      rw [wp_bind]
      refine wp_mono (beginAtomicRotation_copying h.keyslots hr) ?_ ?_
      · rintro _ h₁ ⟨hc, -, -⟩
        rw [wp_bind, wp_attempt, wp_bind]
        refine wp_mono (rotateDeniableEnvelope_copying (Q := fun _ _ => False) hc)
          (fun _ _ hno => hno.elim) ?_
        intro e h₂ hc₂
        show wp (do abortAtomicRotation; throw e) _ _ h₂
        unfold abortAtomicRotation
        rw [wp_bind, wp_bind, wp_get, hc₂.rotation]
        rintro b (hb | hb)
        · exact .inl (.inl (hc₂.files b hb))
        · exact .inl (.inr (hc₂.mirrors b hb))
      · rintro _ h₁ ⟨io, rfl⟩ b hb
        exact .inl hb
  | abortRotation =>
      show wp abortAtomicRotation _ _ h
      unfold abortAtomicRotation
      rw [wp_bind, wp_get, hr.rotation]
      exact fun _ hb => .inl hb

/-! ## Calls that run to their end -/

section Quiet

variable {bytes : HeaderBytes}

theorem nextFault_quiet {Q : HeaderFault → Head → Prop} {E : Failure → Head → Prop}
    (hio : h.io = []) (hq : Q .ok h) : wp nextFault Q E h := by
  apply wp_fault
  rw [hio]
  have heq : { h with io := ([] : List HeaderFault).tail } = h := by
    show { h with io := [] } = h
    rw [← hio]
  rw [heq]
  exact hq

theorem ioStep_quiet {Q : Unit → Head → Prop} {E : Failure → Head → Prop} (hio : h.io = [])
    (hq : Q () h) : wp ioStep Q E h := by
  unfold ioStep
  rw [wp_bind]
  exact nextFault_quiet (by exact hio) hq

theorem writeLiveHeader_quiet {Q : Unit → Head → Prop} {E : Failure → Head → Prop}
    (hio : h.io = []) (hq : Q () (h.storeHeader bytes)) : wp (writeLiveHeader bytes) Q E h := by
  unfold writeLiveHeader
  rw [wp_bind]
  exact nextFault_quiet (by exact hio) hq

theorem writeHeaderMirror_quiet {Q : Unit → Head → Prop} {E : Failure → Head → Prop}
    (hio : h.io = []) (hq : Q () (h.storeMirror bytes)) : wp (writeHeaderMirror bytes) Q E h := by
  unfold writeHeaderMirror
  rw [wp_bind]
  exact nextFault_quiet (by exact hio) hq

/-- Both copies, or the live one alone while a rotation is in flight. -/
def storeBoth (h : Head) (bytes : HeaderBytes) : Head :=
  (if h.isV2Format then h.storeMirror bytes else h).storeHeader bytes

theorem writeStandardHeader_quiet {Q : Unit → Head → Prop} {E : Failure → Head → Prop}
    (hio : h.io = []) (hq : Q () (h.storeBoth (.standard h.image))) :
    wp writeStandardHeader Q E h := by
  unfold writeStandardHeader
  rw [wp_bind, wp_get]
  have hlive : ∀ h', h'.io = [] → Q () (h'.storeHeader (.standard h.image)) → wp (do
      writeLiveHeader (.standard h.image); ioStep; ioStep) Q E h' := by
    intro h' hio' hq'
    rw [wp_bind]
    apply writeLiveHeader_quiet hio'
    rw [wp_bind]
    exact ioStep_quiet hio' (ioStep_quiet hio' hq')
  unfold storeBoth at hq
  split
  · next hv2 =>
      rw [if_pos hv2] at hq
      rw [wp_bind]
      exact writeHeaderMirror_quiet hio (hlive _ hio hq)
  · next hv2 =>
      rw [if_neg hv2] at hq
      exact hlive h hio hq

/-- A persist that is not interrupted. -/
theorem persistHeader_quiet {nonce : Nat} {Q : Unit → Head → Prop} {E : Failure → Head → Prop}
    (hio : h.io = []) (hden : h.deniable = none) (hdirty : h.headerDirty = true)
    (hq : ∀ g, Q () { storeBoth { h with headerGeneration := g }
      (.standard { h.image with generation := g }) with headerDirty := false })
    (he : E refused h) : wp (persistHeader nonce) Q E h := by
  unfold persistHeader
  rw [wp_bind, wp_get, if_neg (by rw [hdirty]; decide), hden]
  show wp persistStandard Q E h
  unfold persistStandard
  rw [wp_bind, wp_get]
  simp only
  have hrest : ∀ g, wp (persistMoved h.headerGeneration) Q E
      { h with headerGeneration := g } := by
    intro g
    unfold persistMoved
    rw [wp_bind, wp_attempt]
    exact writeStandardHeader_quiet hio (hq g)
  split
  · cases hn : nextHeaderGeneration h.headerGeneration with
    | none => exact he
    | some g => exact hrest g
  · exact hrest h.headerGeneration

end Quiet

/-- What a call that ran to its end leaves of the headers before: nothing, but for
the mirror a restore does not touch. -/
def Installed (h h' : Head) (table : KeyTable) (keepsMirror : Bool) : Prop :=
  Rest h' ∧ ∀ b, h'.Found b →
    b.Only (·.keyslots = table) ∨ keepsMirror = true ∧ h.mirrors .committed = some b

theorem Rest.isV2Format (hr : Rest h) : h.isV2Format = true := by
  unfold Head.isV2Format
  rw [hr.deniable, hr.rotation]
  simp [hr.versionMajor]

theorem persist_installs {nonce : Nat} (hr : Rest h) (hio : h.io = []) (hd : h.headerDirty = true) :
    wp (persistHeader nonce) (fun _ h' => Installed h h' h.keyslots false) (fun _ h' => h' = h)
      h := by
  refine persistHeader_quiet hio hr.deniable hd (fun g => ?_) rfl
  have hrg : Rest { h with headerGeneration := g } :=
    ⟨hr.handle, hr.path, hr.rotation, hr.deniable, hr.versionMajor⟩
  unfold storeBoth
  rw [if_pos hrg.isV2Format]
  have honly : HeaderBytes.Only (·.keyslots = h.keyslots)
      (.standard { h.image with generation := g }) := ⟨hr.versionMajor, rfl⟩
  refine ⟨⟨hr.handle, hr.path, hr.rotation, hr.deniable, hr.versionMajor⟩, ?_⟩
  rintro b (hb | hb)
  · have hb : Function.update h.files h.handle _ .committed = some b := hb
    rw [hr.handle, Function.update_self] at hb
    injection hb with hb
    exact .inl (hb ▸ honly)
  · have hb : Function.update h.mirrors h.path _ .committed = some b := hb
    rw [hr.path, Function.update_self] at hb
    injection hb with hb
    exact .inl (hb ▸ honly)

theorem restore_installs {versionMajor generation : Nat} {keyslots : KeyTable} (hr : Rest h)
    (hio : h.io = []) (hv : versionMajor ≥ versionMajorHeaderV2) :
    wp (restoreHeaderAsNewState versionMajor generation keyslots)
      (fun _ h' => Installed h h' keyslots true) (fun _ h' => h' = h) h := by
  have hwrite : ∀ (image : HeaderImage) (v g : Nat), image.keyslots = keyslots →
      image.versionMajor ≥ versionMajorHeaderV2 → v ≥ versionMajorHeaderV2 →
      wp (do
        restoreHeaderBytes image
        modify fun h : Head =>
          { h with versionMajor := v, headerGeneration := g, keyslots := keyslots })
        (fun _ h' => Installed h h' keyslots true) (fun _ h' => h' = h) h := by
    intro image v g hkeys himg hv'
    unfold restoreHeaderBytes
    rw [wp_bind, wp_bind]
    apply writeLiveHeader_quiet hio
    rw [wp_bind]
    refine ioStep_quiet (by exact hio) ?_
    refine ⟨⟨hr.handle, hr.path, hr.rotation, hr.deniable, hv'⟩, ?_⟩
    rintro b (hb | hb)
    · have hb : Function.update h.files h.handle _ .committed = some b := hb
      rw [hr.handle, Function.update_self] at hb
      injection hb with hb
      subst hb
      exact .inl ⟨himg, hkeys⟩
    · exact .inr ⟨rfl, hb⟩
  unfold restoreHeaderAsNewState
  rw [wp_bind, wp_get]
  split
  · rfl
  split
  · simp only
    split
    · rfl
    · exact hwrite _ _ _ rfl (le_trans hv (le_max_left _ _)) (le_trans hv (le_max_left _ _))
  · exact hwrite _ _ _ rfl hv hv

/-- The abort of a rotation that gave up leads back to where it began. -/
theorem Copying.restored_rest {table : KeyTable} (hr : Rest h) (hc : Copying table h h₁) :
    Rest (h₁.restored h.saved) ∧ ∀ b, (h₁.restored h.saved).Found b → h.Found b := by
  refine ⟨⟨rfl, rfl, rfl, ?_, hr.versionMajor⟩, ?_⟩
  · show h.deniable.or h₁.deniable = none
    rw [hr.deniable, hc.deniable]
    rfl
  · rintro b (hb | hb)
    · exact .inl (hc.files b hb)
    · exact .inr (hc.mirrors b hb)

theorem commit_quiet {Q : Unit → Head → Prop} {E : Failure → Head → Prop} {st : RotationState}
    (hio : h.io = []) (hrot : h.rotation = some st)
    (hq : Q () { renamed { h with rotation := none } with
      mirrors := Function.update (Function.update h.mirrors .rotating none) .committed none
      headerDirty := true, path := .committed }) : wp commitAtomicRotation Q E h := by
  unfold commitAtomicRotation
  rw [wp_bind, wp_get, hrot]
  simp only
  rw [wp_bind, wp_modify, wp_bind]
  refine ioStep_quiet (by exact hio) ?_
  rw [wp_bind]
  refine ioStep_quiet (by exact hio) ?_
  rw [wp_bind, wp_attempt]
  refine ioStep_quiet (by exact hio) ?_
  simp only
  rw [wp_bind, wp_modify, wp_bind]
  refine ioStep_quiet (by exact hio) ?_
  rw [wp_bind, wp_modify, wp_bind]
  unfold removeStaleMirror
  rw [wp_bind]
  exact nextFault_quiet (by exact hio) hq

theorem rotate_installs {newMvk : Nat} {table : KeyTable} {fails : Bool} (hr : Rest h)
    (hio : h.io = []) :
    wp (rotateHeader (installRotatedMvk newMvk table) fails 0 [])
      (fun _ h' => Installed h h' table false)
      (fun _ h' => Rest h' ∧ ∀ b, h'.Found b → h.Found b) h := by
  unfold rotateHeader
  rw [wp_bind]
  refine wp_mono (beginAtomicRotation_copying table hr) ?_ ?_
  · rintro _ h₁ ⟨hc, hv, hio₁⟩
    rw [hio] at hio₁
    -- the state with the new slots, before anything is written
    let h₂ : Head := { h₁ with keyslots := table, mvk := newMvk, headerDirty := true }
    have hc₂ : Copying table h h₂ :=
      ⟨hc.handle, hc.path, hc.deniable, hc.rotation, hc.files, hc.mirrors, hc.copy⟩
    have habort : ∀ (e : Failure), wp (do abortAtomicRotation; throw e)
        (fun (_ : Unit) h' => Installed h h' table false)
        (fun _ h' => Rest h' ∧ ∀ b, h'.Found b → h.Found b) h₂ := by
      intro e
      unfold abortAtomicRotation
      rw [wp_bind, wp_bind, wp_get, hc₂.rotation]
      exact hc₂.restored_rest hr
    have hbody : wp (do
        installRotatedMvk newMvk table
        if fails then throw refused
        persistHeader 0)
        (fun _ h₃ => h₃.io = [] ∧ h₃.rotation = some h.saved ∧ h₃.deniable = none ∧
          h₃.versionMajor ≥ versionMajorHeaderV2 ∧
          ∃ image : HeaderImage, image.versionMajor ≥ versionMajorHeaderV2 ∧
            image.keyslots = table ∧ h₃.files .rotating = some (.standard image))
        (fun _ h₃ => h₃ = h₂) h₁ := by
      rw [wp_bind]
      show wp _ _ _ h₂
      cases fails with
      | true => rfl
      | false =>
          refine persistHeader_quiet (h := h₂) hio₁ hc.deniable rfl (fun g => ?_) rfl
          have hno : Head.isV2Format { h₂ with headerGeneration := g } = false := by
            unfold Head.isV2Format
            rw [show Head.rotation { h₂ with headerGeneration := g } = some h.saved from hc.rotation]
            simp
          unfold storeBoth
          rw [hno]
          refine ⟨hio₁, hc.rotation, hc.deniable, ?_, { h₂.image with generation := g }, ?_, rfl, ?_⟩
          · show h₁.versionMajor ≥ _
            rw [hv]
            exact hr.versionMajor
          · show h₁.versionMajor ≥ _
            rw [hv]
            exact hr.versionMajor
          · show Function.update h₁.files h₁.handle _ .rotating = _
            rw [hc.handle, Function.update_self]
    rw [wp_bind, wp_attempt]
    refine wp_mono hbody ?_ ?_
    · rintro _ h₃ ⟨hio₃, hrot₃, hden₃, hv₃, image, himg, hkeys, hfile⟩
      show wp (do modify fun h : Head => { h with io := [] }; commitAtomicRotation) _ _ h₃
      rw [wp_bind, wp_modify]
      refine commit_quiet rfl hrot₃ ⟨⟨rfl, rfl, rfl, hden₃, hv₃⟩, ?_⟩
      rintro b (hb | hb)
      · have hb : h₃.files .rotating = some b := hb
        rw [hfile] at hb
        injection hb with hb
        subst hb
        exact .inl ⟨himg, hkeys⟩
      · cases hb
    · rintro e h₃ rfl
      exact habort e
  · rintro _ h₁ ⟨io, rfl⟩
    exact ⟨⟨hr.handle, hr.path, hr.rotation, hr.deniable, hr.versionMajor⟩, fun _ hb => hb⟩

/-- Runs in which nothing fails but by a crash: calls end by themselves. -/
def Uninterrupted : Op → List HeaderFault → Prop
  | .rotateMvk _ _ _ commit, io => io = [] ∧ commit = []
  | .rotateMvkDeniable _ _ _ _ _ _ _ commit, io => io = [] ∧ commit = []
  | _, io => io = []

def keepsMirror : Op → Bool
  | .restoreHeader _ _ _ => true
  | _ => false

/-- A call that ran to its end and returned `Ok` has installed its table; one that
returned `Err` has changed nothing an open can find. -/
theorem exec_installs {op : Op} (hr : Rest h) (hcf : CurrentFormat op)
    (hu : Uninterrupted op h.io) :
    wp (exec op)
      (fun _ h' => match h.installs op with
        | some table => Installed h h' table (keepsMirror op)
        | none => Rest h' ∧ ∀ b, h'.Found b → h.Found b)
      (fun _ h' => Rest h' ∧ ∀ b, h'.Found b → h.Found b) h := by
  have hmem : ∀ m : HeadM Unit, MemoryOnly m h → wp m
      (fun _ h' => Rest h' ∧ ∀ b, h'.Found b → h.Found b)
      (fun _ h' => Rest h' ∧ ∀ b, h'.Found b → h.Found b) h := by
    intro m hm
    exact wp_mono hm (fun _ _ hm => ⟨hm.rest hr, fun _ hb => hm.found hb⟩)
      fun _ _ hm => ⟨hm.rest hr, fun _ hb => hm.found hb⟩
  cases op with
  | enroll credential salt derivedMvk => exact hmem _ enroll_memory
  | updateAt idx credential salt derivedMvk => exact hmem _ updateAt_memory
  | revokeSlot idx => exact hmem _ (guardStandard_memory setSlot_memory)
  | swapSlots a b => exact hmem _ swapSlots_memory
  | enrollDeniable accepts slotIdx credential material seed =>
      exact hmem _ (enrollDeniable_memory hr.deniable)
  | clearDeniableSlot slotIdx fill => exact hmem _ (clearDeniableSlot_memory hr.deniable)
  | upgradeHeaderToV3 =>
      apply hmem
      show MemoryOnly ((fun _ => ()) <$> upgradeHeaderToV3) h
      rw [MemoryOnly, wp_map]
      exact upgradeHeaderToV3_memory hr.deniable
  | persistHeader nonce =>
      show wp (persistHeader nonce) _ _ h
      by_cases hd : h.headerDirty = true
      · have hT : h.installs (.persistHeader nonce) = some h.keyslots := if_pos hd
        rw [hT]
        refine wp_mono (persist_installs hr hu hd) (fun _ _ hi => hi) ?_
        rintro _ h' rfl
        exact ⟨hr, fun _ hb => hb⟩
      · have hT : h.installs (.persistHeader nonce) = none := if_neg hd
        rw [hT]
        unfold persistHeader
        rw [wp_bind, wp_get, if_pos (by simpa using hd)]
        exact ⟨hr, fun _ hb => hb⟩
  | restoreHeader versionMajor generation keyslots =>
      refine wp_mono (restore_installs hr hu hcf) (fun _ _ hi => hi) ?_
      rintro _ h' rfl
      exact ⟨hr, fun _ hb => hb⟩
  | rotateMvk newMvk table fails commit =>
      obtain ⟨hio, rfl⟩ := hu
      exact rotate_installs hr hio
  | rotateMvkDeniable accepts newSalt newMvk nonce fill keep fails commit =>
      show wp (rotateHeader _ fails (nonce + 1) commit) _ _ h
      unfold rotateHeader
      rw [wp_bind]
      refine wp_mono (beginAtomicRotation_copying h.keyslots hr) ?_ ?_
      · rintro _ h₁ ⟨hc, -, -⟩
        rw [wp_bind, wp_attempt, wp_bind]
        refine wp_mono (rotateDeniableEnvelope_copying (Q := fun _ _ => False) hc)
          (fun _ _ hno => hno.elim) ?_
        intro e h₂ hc₂
        show wp (do abortAtomicRotation; throw e) _ _ h₂
        unfold abortAtomicRotation
        rw [wp_bind, wp_bind, wp_get, hc₂.rotation]
        exact hc₂.restored_rest hr
      · rintro _ h₁ ⟨io, rfl⟩
        exact ⟨⟨hr.handle, hr.path, hr.rotation, hr.deniable, hr.versionMajor⟩, fun _ hb => hb⟩
  | abortRotation =>
      show wp abortAtomicRotation _ _ h
      unfold abortAtomicRotation
      rw [wp_bind, wp_get, hr.rotation]
      exact ⟨hr, fun _ hb => hb⟩

/-! ## Runs -/

/-- The call returned `Ok`. -/
def succeeds (h : Head) (op : Op) (io : List HeaderFault) : Bool :=
  match exec op { h with io := io } with
  | .ok _ _ => true
  | .error _ _ => false

/-- The table installed last, behind every table whose installation a crash has
cut short since. -/
def inForce (h : Head) (tables : List KeyTable) : Step → List KeyTable
  | .call op io =>
      match h.installs op with
      | some table => if h.succeeds op io then [table] else tables
      | none => tables
  | .crash op _ =>
      match h.installs op with
      | some table => table :: tables
      | none => tables

def trackRun (h : Head) (tables : List KeyTable) : List Step → Option (Head × List KeyTable)
  | [] => some (h, tables)
  | s :: rest => (h.next s).bind fun h' => h'.trackRun (h.inForce tables s) rest

/-- Headers are LUKSBOX2+ and nothing fails but by a crash. -/
def CrashOnly : Step → Prop
  | .call op io => CurrentFormat op ∧ Uninterrupted op io
  | .crash op _ => CurrentFormat op

/-- A restore drops no credential the mirror still accepts. -/
def MirrorCovered (h : Head) : Step → Prop
  | .call (.restoreHeader _ _ keyslots) _ =>
      ∀ image, h.mirrors .committed = some (.standard image) →
        ∀ c, image.accepts c → hasCredential keyslots c
  | _ => True

def CoveredRun : Head → List Step → Prop
  | _, [] => True
  | h, s :: rest => h.MirrorCovered s ∧ ∀ h', h.next s = some h' → CoveredRun h' rest

/-- No header an open may use accepts a credential of none of the tables. -/
def Final (h : Head) (tables : List KeyTable) : Prop :=
  ∀ image, h.Found (.standard image) → ∀ c, image.accepts c →
    ∃ table ∈ tables, hasCredential table c

/-- What an open can find are LUKSBOX2+ headers whose credentials are in force. -/
def Guarded (h : Head) (tables : List KeyTable) : Prop :=
  ∀ b, h.Found b →
    b.Only fun image => ∀ c, image.accepts c → ∃ table ∈ tables, hasCredential table c

theorem Guarded.final {tables : List KeyTable} (hg : Guarded h tables) : Final h tables :=
  fun _ hf => (hg _ hf).2

theorem only_of_table {table : KeyTable} {tables : List KeyTable} {b : HeaderBytes}
    (hmem : table ∈ tables) (hb : b.Only (·.keyslots = table)) :
    b.Only fun image => ∀ c, image.accepts c → ∃ table ∈ tables, hasCredential table c := by
  refine hb.weaken fun image hkeys c hc => ⟨table, hmem, ?_⟩
  rw [← hkeys]
  exact hc.has

theorem Rest.withFaults {io : List HeaderFault} (hr : Rest h) : Rest { h with io := io } :=
  ⟨hr.handle, hr.path, hr.rotation, hr.deniable, hr.versionMajor⟩

/-- A call cut short anywhere. -/
theorem Guarded.crash {tables : List KeyTable} {op : Op} {io : List HeaderFault} (hr : Rest h)
    (hg : Guarded h tables) (hcf : CurrentFormat op) :
    Guarded (h.after op io) (h.inForce tables (.crash op io)) := by
  have hfound : ∀ b, (h.after op io).Found b → h.Found b ∨ ∃ T, h.installs op = some T ∧
      b.Only (·.keyslots = T) := by
    have hr' : Rest { h with io := io } := hr.withFaults
    have hspec := exec_found hr' hcf
    have hsame : installs { h with io := io } op = h.installs op := by cases op <;> rfl
    rw [hsame] at hspec
    unfold after
    cases hx : exec op { h with io := io } with
    | ok a h' =>
        have h1 := wp_ok hspec hx
        exact h1
    | error e h' =>
        have h1 := wp_error hspec hx
        exact h1
  intro b hb
  unfold inForce
  rcases hfound b hb with hb | ⟨T, hT, hnew⟩
  · refine (hg b hb).weaken fun image hall c hc => ?_
    obtain ⟨table, hmem, hhas⟩ := hall c hc
    refine ⟨table, ?_, hhas⟩
    simp only
    split
    · exact List.mem_cons_of_mem _ hmem
    · exact hmem
  · simp only
    rw [hT]
    exact only_of_table List.mem_cons_self hnew

/-- A call that ran to its end. -/
theorem Guarded.call {tables : List KeyTable} {op : Op} {io : List HeaderFault} (hr : Rest h)
    (hg : Guarded h tables) (hs : CrashOnly (.call op io)) (hm : h.MirrorCovered (.call op io)) :
    Rest (h.after op io) ∧ Guarded (h.after op io) (h.inForce tables (.call op io)) := by
  have hr' : Rest { h with io := io } := hr.withFaults
  have hspec := exec_installs hr' hs.1 hs.2
  have hsame : installs { h with io := io } op = h.installs op := by cases op <;> rfl
  rw [hsame] at hspec
  unfold after inForce
  simp only
  unfold succeeds
  cases hx : exec op { h with io := io } with
  | error e h' =>
      have h1 := wp_error hspec hx
      refine ⟨h1.1, fun b hb => ?_⟩
      have hb := hg b (h1.2 b hb)
      split <;> exact hb
  | ok a h' =>
      have h1 := wp_ok hspec hx
      cases hT : h.installs op with
      | none =>
          rw [hT] at h1
          exact ⟨h1.1, fun b hb => hg b (h1.2 b hb)⟩
      | some table =>
          rw [hT] at h1
          refine ⟨h1.1, fun b hb => ?_⟩
          rcases h1.2 b hb with hnew | ⟨hkeep, hold⟩
          · exact only_of_table List.mem_cons_self hnew
          · have hold : h.mirrors .committed = some b := hold
            have hb := hg b (.inr hold)
            cases op with
            | restoreHeader versionMajor generation keyslots =>
                injection hT with hT
                subst hT
                cases b with
                | standard image =>
                    refine ⟨hb.1, fun c hc => ⟨_, List.mem_cons_self, ?_⟩⟩
                    exact hm image hold c hc
                | deniable header => exact hb
                | unparsable => trivial
                | unauthentic => trivial
            | _ => cases hkeep

theorem Guarded.reopen {tables : List KeyTable} (hg : Guarded h tables)
    (hre : h.reopen = some h') : Rest h' ∧ Guarded h' tables := by
  unfold Head.reopen at hre
  obtain ⟨bytes, hl, hop⟩ := Option.bind_eq_some_iff.1 hre
  have hfound : h.Found bytes := by
    unfold loaded at hl
    split at hl
    · exact .inr hl
    · exact .inl hl
  have hsame := opened_spec hop
  have hguard : Guarded h' tables := by
    intro b hb
    unfold Found at hb
    rw [hsame.2.2.2.1, hsame.2.2.2.2.1] at hb
    exact hg b hb
  cases bytes with
  | standard image =>
      injection hop with hop
      subst hop
      exact ⟨⟨rfl, rfl, rfl, rfl, (hg _ hfound).1⟩, hguard⟩
  | deniable header => exact (hg _ hfound).elim
  | unparsable => cases hop
  | unauthentic => cases hop

theorem Guarded.run {steps : List Step} {tables tables' : List KeyTable} (hr : Rest h)
    (hg : Guarded h tables) (hs : ∀ s ∈ steps, CrashOnly s) (hm : CoveredRun h steps)
    (hrun : h.trackRun tables steps = some (h', tables')) : Rest h' ∧ Guarded h' tables' := by
  induction steps generalizing h tables with
  | nil =>
      injection hrun with hrun
      injection hrun with h1 h2
      exact ⟨h1 ▸ hr, h1 ▸ h2 ▸ hg⟩
  | cons s rest ih =>
      obtain ⟨h₁, hn, hrun⟩ := Option.bind_eq_some_iff.1 hrun
      have hstep : Rest h₁ ∧ Guarded h₁ (h.inForce tables s) := by
        have hcs := hs s List.mem_cons_self
        cases s with
        | call op io =>
            injection hn with hn
            subst hn
            exact hg.call hr hcs hm.1
        | crash op io => exact (hg.crash hr hcs).reopen hn
      exact ih hstep.1 hstep.2 (fun t ht => hs t (List.mem_cons_of_mem _ ht)) (hm.2 h₁ hn) hrun

/-- In every run of a LUKSBOX2 vault whose only faults are crashes, neither the live
header nor the mirror accepts a credential of none of the tables in force, also in the
middle of the next call. -/
theorem revocation_is_final {mvk headerSalt : Nat} {keyslots : KeyTable} {steps : List Step}
    {tables : List KeyTable} (hs : ∀ s ∈ steps, CrashOnly s)
    (hm : CoveredRun (created mvk headerSalt true keyslots) steps)
    (hrun : (created mvk headerSalt true keyslots).trackRun [keyslots] steps = some (h, tables)) :
    Final h tables ∧
      -- and wherever a crash cuts the next call short
      ∀ op io, CurrentFormat op → Final (h.after op io) (h.inForce tables (.crash op io)) := by
  have hrest : Rest (created mvk headerSalt true keyslots) :=
    ⟨rfl, rfl, rfl, rfl, le_refl versionMajorHeaderV2⟩
  have hguard : Guarded (created mvk headerSalt true keyslots) [keyslots] := by
    rintro b (hb | hb)
    · injection hb with hb
      subst hb
      exact only_of_table List.mem_cons_self ⟨le_refl versionMajorHeaderV2, rfl⟩
    · cases hb
  obtain ⟨hr', hg'⟩ := hguard.run hrest hs hm hrun
  exact ⟨hg'.final, fun op io hcf => (hg'.crash hr' hcf).final⟩

def firstPhrase : KeyTable := Function.update (fun _ => none) 0 (some ⟨1, false, 0, 7⟩)

def secondPhraseSteps : List Step := [.call (.enroll 2 1 false) [], .call (.persistHeader 0) []]

/-- The header of before the second passphrase is put back. -/
def restoredSteps : List Step := secondPhraseSteps ++ [.call (.restoreHeader 2 0 firstPhrase) []]

theorem restored_header_leaves_mirror :
    ∃ h, (created 7 0 true firstPhrase).trackRun [firstPhrase] restoredSteps =
      some (h, [firstPhrase]) ∧ ¬ Final h [firstPhrase] := by
  refine ⟨_, rfl, fun hfinal => ?_⟩
  have hmirror := hfinal ⟨7, 2, 0, Function.update firstPhrase 1 (some ⟨2, false, 1, 7⟩)⟩ (.inr rfl)
    2 ⟨1, ⟨2, false, 1, 7⟩, rfl, rfl, rfl⟩
  obtain ⟨table, hmem, i, k, hk, hc⟩ := hmirror
  rw [List.mem_singleton] at hmem
  subst hmem
  by_cases hi : i = 0
  · subst hi
    injection hk with hk
    subst hk
    cases hc
  · unfold firstPhrase at hk
    rw [Function.update_of_ne hi] at hk
    cases hk

theorem persisted_table_final :
    (∀ s ∈ secondPhraseSteps, CrashOnly s) ∧
      CoveredRun (created 7 0 true firstPhrase) secondPhraseSteps ∧
      ∃ h tables, (created 7 0 true firstPhrase).trackRun [firstPhrase] secondPhraseSteps =
        some (h, tables) ∧ Final h tables := by
  have hs : ∀ s ∈ secondPhraseSteps, CrashOnly s := by
    intro s hs
    rcases List.mem_cons.1 hs with rfl | hs
    · exact ⟨trivial, rfl⟩
    · rw [List.mem_singleton] at hs
      subst hs
      exact ⟨trivial, rfl⟩
  have hm : CoveredRun (created 7 0 true firstPhrase) secondPhraseSteps :=
    ⟨trivial, fun _ _ => ⟨trivial, fun _ _ => trivial⟩⟩
  exact ⟨hs, hm, _, _, rfl, (revocation_is_final hs hm rfl).1⟩

end Head

end Luksbox
