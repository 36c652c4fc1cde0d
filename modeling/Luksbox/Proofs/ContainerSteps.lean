import Luksbox.Proofs.Steps

/-!
# What the container's calls do

One specification for each I/O call: the state it leaves when it returns and
every state it may leave when it fails. An I/O call always takes a fault off
the schedule (`withIo`); a read changes nothing else, a write changes the slot
it is about, and an error is an I/O error, never a panic.
-/

namespace Luksbox

open Lib

/-- An error a flush can end with: no panic, and not the size limit, which only
the allocation of data slots reports. -/
def Failure.Plain (e : Failure) : Prop := e ≠ .panic ∧ ∀ n, e ≠ .err (.vaultSizeLimit n)

namespace Container

variable {c : Container}

/-- The container with another rest of the fault schedule. -/
def withIo (c : Container) (io : List Fault) : Container := { c with env := { c.env with io := io } }

theorem ioError_plain : Failure.Plain ioError := ⟨nofun, nofun⟩

theorem offsetOverflow_plain : Failure.Plain (.err .offsetOverflow) := ⟨nofun, nofun⟩

theorem crypto_plain : Failure.Plain (.err .crypto) := ⟨nofun, nofun⟩

theorem metadataTooLarge_plain : Failure.Plain (.err (.format .metadataTooLarge)) :=
  ⟨nofun, nofun⟩

theorem nextFault_spec {Q : Fault → Container → Prop} {E : Failure → Container → Prop}
    (h : ∀ fault io, Q fault (c.withIo io)) : wp nextFault Q E c := by
  unfold wp nextFault
  cases hio : c.env.io with
  | nil =>
      have heq : c.withIo [] = c := by
        unfold withIo
        rw [← hio]
      have := h .ok []
      rw [heq] at this
      exact this
  | cons fault rest => exact h fault rest

theorem ioCall_spec {Q : Unit → Container → Prop} {E : Failure → Container → Prop}
    (hok : ∀ io, Q () (c.withIo io)) (herr : ∀ io, E ioError (c.withIo io)) : wp ioCall Q E c := by
  unfold ioCall
  rw [wp_bind]
  refine nextFault_spec fun fault io => ?_
  cases fault with
  | ok => exact hok io
  | before => exact herr io
  | torn left written => exact herr io
  | after => exact herr io

theorem writeAt_spec {off : Nat} {id : ChunkId} {slot : Slot} {Q : Unit → Container → Prop}
    {E : Failure → Container → Prop}
    (hok : ∀ io, Q () ((c.withIo io).storeSlot off id slot chunkSlotSize))
    (herr : ∀ io, E ioError (c.withIo io))
    (htorn : ∀ io left written, E ioError ((c.withIo io).storeSlot off id left written)) :
    wp (writeAt off id slot) Q E c := by
  unfold writeAt
  rw [wp_bind]
  refine nextFault_spec fun fault io => ?_
  cases fault with
  | ok => exact hok io
  | before => exact herr io
  | torn left written => exact htorn io left _
  | after => exact htorn io slot _

theorem readAt_spec {off : Nat} {id : ChunkId} {Q : Slot → Container → Prop}
    {E : Failure → Container → Prop}
    (hok : ∀ io, off + chunkSlotSize ≤ c.fileLen → Q (c.slots id) (c.withIo io))
    (herr : ∀ io, E ioError (c.withIo io)) : wp (readAt off id) Q E c := by
  unfold readAt
  rw [wp_bind]
  refine ioCall_spec (fun io => ?_) herr
  simp only [wp_bind, wp_get, wp_ite, wp_throw, wp_pure]
  exact ⟨fun _ => herr io, fun hlen => hok io (Nat.not_lt.mp hlen)⟩

theorem syncAll_spec {Q : Unit → Container → Prop} {E : Failure → Container → Prop}
    (hok : ∀ io, Q () (c.withIo io).synced) (herr : ∀ io, E ioError (c.withIo io))
    (hafter : ∀ io, E ioError (c.withIo io).synced) : wp syncAll Q E c := by
  unfold syncAll
  rw [wp_bind]
  refine nextFault_spec fun fault io => ?_
  cases fault with
  | ok => exact hok io
  | before => exact herr io
  | torn left written => exact herr io
  | after => exact hafter io

theorem slotOffset_plain {dataOffset : Nat} {id : ChunkId} {e : Failure}
    (h : slotOffset dataOffset id = .error e) : e = .err .offsetOverflow := by
  unfold slotOffset at h
  simp only [gt_iff_lt] at h
  split at h
  · injection h with h
    exact h.symm
  · split at h
    · injection h with h
      exact h.symm
    · cases h

theorem slotOffset_error_plain {dataOffset : Nat} {id : ChunkId} {e : Failure}
    (h : slotOffset dataOffset id = .error e) : e.Plain := by
  rw [slotOffset_plain h]
  exact offsetOverflow_plain

theorem slotOffset_eq_ok {dataOffset : Nat} {id off : Nat} (h : slotOffset dataOffset id = .ok off) :
    off = dataOffset + id * chunkSlotSize ∧ dataOffset + id * chunkSlotSize ≤ u64Max := by
  unfold slotOffset at h
  simp only [gt_iff_lt] at h
  split at h
  · cases h
  · split at h
    · cases h
    · next hle =>
        injection h with h
        exact ⟨h.symm, Nat.not_lt.mp hle⟩

/-- Reading a chunk: what the slot opens to under its AAD. -/
theorem readChunk_spec {key : SubKey} {fileId idx : Nat} {chunk : ChunkRef}
    {Q : Chunk → Container → Prop} {E : Failure → Container → Prop}
    (hok : ∀ io pt, c.slots chunk.id key (chunkAad fileId idx chunk.generation) = some pt →
      Q pt (c.withIo io))
    (herr : ∀ e, e.Plain → E e c) (herrIo : ∀ io e, e.Plain → E e (c.withIo io)) :
    wp (readChunk key fileId idx chunk) Q E c := by
  unfold readChunk
  simp only [wp_bind, wp_get]
  cases hoff : slotOffset c.header.dataOffset chunk.id with
  | error e =>
      rw [wp_fromExcept_error]
      exact herr _ (slotOffset_error_plain hoff)
  | ok off =>
      rw [wp_fromExcept_ok, wp_bind]
      refine readAt_spec (fun io _ => ?_) fun io => herrIo io _ ioError_plain
      cases hslot : c.slots chunk.id key (chunkAad fileId idx chunk.generation) with
      | none => exact herrIo io _ crypto_plain
      | some pt => exact hok io pt hslot

/-- Writing a chunk: its slot, or nothing, has changed. -/
theorem writeChunk_spec {key : SubKey} {fileId idx : Nat} {chunk : ChunkRef} {pt : Chunk}
    {Q : Unit → Container → Prop} {E : Failure → Container → Prop}
    (hok : ∀ io off, slotOffset c.header.dataOffset chunk.id = .ok off →
      Q () (((c.withSeal ⟨key, chunkAad fileId idx chunk.generation, pt⟩).withIo io).storeSlot off
        chunk.id (Slot.sealed key (chunkAad fileId idx chunk.generation) pt) chunkSlotSize))
    (herr : ∀ e, e.Plain → E e c)
    (herrIo : ∀ io e, e.Plain →
      E e ((c.withSeal ⟨key, chunkAad fileId idx chunk.generation, pt⟩).withIo io))
    (htorn : ∀ io off left written e, e.Plain →
      E e (((c.withSeal ⟨key, chunkAad fileId idx chunk.generation, pt⟩).withIo io).storeSlot off
        chunk.id left written)) :
    wp (writeChunk key fileId idx chunk pt) Q E c := by
  unfold writeChunk
  simp only [wp_bind, wp_get]
  cases hoff : slotOffset c.header.dataOffset chunk.id with
  | error e =>
      rw [wp_fromExcept_error]
      exact herr _ (slotOffset_error_plain hoff)
  | ok off =>
      rw [wp_fromExcept_ok, wp_bind, wp_modify]
      exact writeAt_spec (fun io => hok io off hoff) (fun io => herrIo io _ ioError_plain)
        fun io left written => htorn io off left written _ ioError_plain

/-! ## Metadata -/

/-- What a metadata commit can change. -/
structure Committed (c c' : Container) : Prop where
  header : c'.header = c.header
  deniable : c'.deniable = c.deniable
  mvk : c'.mvk = c.mvk
  headerSalt : c'.headerSalt = c.headerSalt
  slots : c'.slots = c.slots
  fileLen : c'.fileLen = c.fileLen
  seals : c'.seals = c.seals

theorem Committed.refl : Committed c c := ⟨rfl, rfl, rfl, rfl, rfl, rfl, rfl⟩

theorem Committed.trans {c' c'' : Container} (h : Committed c c') (h' : Committed c' c'') :
    Committed c c'' :=
  ⟨h'.header.trans h.header, h'.deniable.trans h.deniable, h'.mvk.trans h.mvk,
    h'.headerSalt.trans h.headerSalt, h'.slots.trans h.slots, h'.fileLen.trans h.fileLen,
    h'.seals.trans h.seals⟩

theorem syncAll_committed :
    wp syncAll (fun _ c' => Committed c c') (fun e c' => e.Plain ∧ Committed c c') c :=
  syncAll_spec (fun _ => ⟨rfl, rfl, rfl, rfl, rfl, rfl, rfl⟩)
    (fun _ => ⟨ioError_plain, rfl, rfl, rfl, rfl, rfl, rfl, rfl⟩)
    (fun _ => ⟨ioError_plain, rfl, rfl, rfl, rfl, rfl, rfl, rfl⟩)

theorem ioCall_committed :
    wp ioCall (fun _ c' => Committed c c') (fun e c' => e.Plain ∧ Committed c c') c :=
  ioCall_spec (fun _ => ⟨rfl, rfl, rfl, rfl, rfl, rfl, rfl⟩)
    (fun _ => ⟨ioError_plain, rfl, rfl, rfl, rfl, rfl, rfl, rfl⟩)

theorem writeMetadataMirror_committed {m : Metadata} :
    wp (writeMetadataMirror m) (fun _ c' => Committed c c') (fun e c' => e.Plain ∧ Committed c c')
      c := by
  unfold writeMetadataMirror
  rw [wp_bind]
  refine nextFault_spec fun fault io => ?_
  cases fault with
  | ok => exact ⟨rfl, rfl, rfl, rfl, rfl, rfl, rfl⟩
  | before => exact ⟨ioError_plain, rfl, rfl, rfl, rfl, rfl, rfl, rfl⟩
  | torn left written => exact ⟨ioError_plain, rfl, rfl, rfl, rfl, rfl, rfl, rfl⟩
  | after => exact ⟨ioError_plain, rfl, rfl, rfl, rfl, rfl, rfl, rfl⟩

theorem writeLive_committed {m : Metadata} :
    wp (writeLive m) (fun _ c' => Committed c c') (fun e c' => e.Plain ∧ Committed c c') c := by
  unfold writeLive
  rw [wp_bind]
  refine nextFault_spec fun fault io => ?_
  cases fault with
  | ok => exact ⟨rfl, rfl, rfl, rfl, rfl, rfl, rfl⟩
  | before => exact ⟨ioError_plain, rfl, rfl, rfl, rfl, rfl, rfl, rfl⟩
  | torn left written => exact ⟨ioError_plain, rfl, rfl, rfl, rfl, rfl, rfl, rfl⟩
  | after => exact ⟨ioError_plain, rfl, rfl, rfl, rfl, rfl, rfl, rfl⟩

/-- The commit itself: the region is large enough whenever it returns. -/
theorem writeMetadata_committed {m : Metadata} :
    wp (writeMetadata m)
      (fun _ c' => Committed c c' ∧ m.len + metadataOverhead ≤ c.header.metadataSize)
      (fun e c' => e.Plain ∧ Committed c c') c := by
  unfold writeMetadata
  simp only [wp_bind, wp_get, wp_ite, wp_throw]
  refine ⟨fun _ => ⟨metadataTooLarge_plain, Committed.refl⟩, fun hfit => ?_⟩
  have hfit : m.len + metadataOverhead ≤ c.header.metadataSize := Nat.not_lt.mp hfit
  -- what follows the mirror
  have hrest : ∀ c₁, Committed c c₁ →
      wp (do writeLive m; syncAll; ioCall)
        (fun _ c' => Committed c c' ∧ m.len + metadataOverhead ≤ c.header.metadataSize)
        (fun e c' => e.Plain ∧ Committed c c') c₁ := by
    intro c₁ h₁
    rw [wp_bind]
    refine wp_mono writeLive_committed ?_ fun e c' he => ⟨he.1, h₁.trans he.2⟩
    intro _ c₂ h₂
    rw [wp_bind]
    refine wp_mono syncAll_committed ?_ fun e c' he => ⟨he.1, (h₁.trans h₂).trans he.2⟩
    intro _ c₃ h₃
    refine wp_mono ioCall_committed ?_ fun e c' he =>
      ⟨he.1, ((h₁.trans h₂).trans h₃).trans he.2⟩
    intro _ c₄ h₄
    exact ⟨((h₁.trans h₂).trans h₃).trans h₄, hfit⟩
  refine ⟨fun _ => ?_, fun _ => wp_bind.mp (hrest c Committed.refl)⟩
  refine wp_mono writeMetadataMirror_committed ?_ fun e c' he => he
  intro _ c₁ h₁
  exact hrest c₁ h₁

theorem writeAnchor_committed {g : Nat} :
    wp (writeAnchor g) (fun _ c' => Committed c c') (fun e c' => e.Plain ∧ Committed c c') c := by
  unfold writeAnchor
  simp only [wp_bind, wp_get]
  cases c.anchor with
  | none => exact Committed.refl
  | some _ =>
      simp only [wp_bind]
      refine wp_mono ioCall_committed ?_ fun _ _ he => he
      intro _ c' h
      exact ⟨h.header, h.deniable, h.mvk, h.headerSalt, h.slots, h.fileLen, h.seals⟩

end Container

end Luksbox
