import Luksbox.Lib.Keeps
import Luksbox.Model.Run
import Luksbox.Proofs.ContainerSteps

/-!
# Walking through the calls

Nearly every step of a call leaves the metadata regions, the anchor and the
header alone and never lowers the generation counter: it edits inodes, moves
slots between lists, or reads and writes chunk slots. `Silent` is what such
steps may change, and `Quiet` adds that chunks may be sealed. An invariant that
survives silent steps, the four programs that seal chunks and a flush survives
every call, whatever the call does and wherever it stops; for one that quiet
steps leave alone the four programs are no concern. The lemmas below say so
program by program.
-/

namespace Luksbox

open Lib

/-- A container call that reads or writes slots. -/
def Vfs.SlotsOnly (c c' : Container) : Prop := c' = { c with
  slots := c'.slots
  slotsMaybe := c'.slotsMaybe
  fileLen := c'.fileLen
  env := { c.env with io := c'.env.io } }

/-- Steps that touch only chunk slots, the fault schedule, and the tree without
lowering its generation counter. -/
structure Silent (s s' : Vfs) : Prop where
  container : Vfs.SlotsOnly s.container s'.container
  generation : s.tree.nextChunkGen ≤ s'.tree.nextChunkGen

theorem Silent.of_eq {s s' : Vfs} (hc : s'.container = s.container)
    (hg : s'.tree.nextChunkGen = s.tree.nextChunkGen) : Silent s s' := by
  refine ⟨?_, le_of_eq hg.symm⟩
  unfold Vfs.SlotsOnly
  rw [hc]

/-- The same, and chunks may be sealed. -/
structure Quiet (s s' : Vfs) : Prop where
  container : s'.container = { s.container with
    slots := s'.container.slots
    slotsMaybe := s'.container.slotsMaybe
    fileLen := s'.container.fileLen
    env := { s.container.env with io := s'.container.env.io }
    seals := s'.container.seals }
  generation : s.tree.nextChunkGen ≤ s'.tree.nextChunkGen

theorem Silent.quiet {s s' : Vfs} (h : Silent s s') : Quiet s s' := by
  refine ⟨?_, h.generation⟩
  rw [h.container]

/-- An invariant that silent steps do not touch. -/
def Unmoved (I : Vfs → Prop) : Prop := ∀ s s', Silent s s' → I s → I s'

/-- An invariant that quiet steps do not touch. -/
def Unhurt (I : Vfs → Prop) : Prop := ∀ s s', Quiet s s' → I s → I s'

theorem Unhurt.unmoved {I : Vfs → Prop} (h : Unhurt I) : Unmoved I :=
  fun s s' hs => h s s' hs.quiet

namespace Vfs

variable {I : Vfs → Prop} {α : Type}

section QuietPrograms

variable (hq : Unmoved I)
include hq

theorem modify_keeps {f : Vfs → Vfs} (hf : ∀ s, Silent s (f s)) :
    Keeps I (modify f : VfsM PUnit) := Keeps.modify fun s h => hq s _ (hf s) h

omit hq in
theorem orThrow_keeps {e : Failure} {o : Option α} : Keeps I (orThrow e o) := by
  cases o with
  | none => exact Keeps.throw
  | some a => exact Keeps.pure

omit hq in
theorem inodeOr_keeps {e : Failure} {id : FileId} : Keeps I (inodeOr e id) :=
  Keeps.bind Keeps.get fun _ => orThrow_keeps

theorem updateInode_keeps {id : FileId} {f : Inode → Inode} : Keeps I (updateInode id f) :=
  Keeps.bind (inodeOr_keeps) fun _ => modify_keeps hq fun _ => Silent.of_eq rfl rfl

omit hq in
theorem requireDir_keeps {id : FileId} : Keeps I (requireDir id) :=
  Keeps.bind (inodeOr_keeps) fun _ => Keeps.ite Keeps.throw Keeps.pure

omit hq in
theorem ensureWritable_keeps : Keeps I ensureWritable :=
  Keeps.bind Keeps.get fun _ => Keeps.ite Keeps.throw Keeps.pure

theorem markDirty_keeps : Keeps I markDirty := modify_keeps hq fun _ => Silent.of_eq rfl rfl

theorem pushPending_keeps {ids : List ChunkId} : Keeps I (pushPending ids) :=
  modify_keeps hq fun _ => Silent.of_eq rfl rfl

omit hq in
theorem nowNs_keeps : Keeps I nowNs := Keeps.bind Keeps.get fun _ => Keeps.pure

theorem alloc_keeps {next : DirectoryTree → Option (Nat × DirectoryTree)}
    (hn : ∀ t n t', next t = some (n, t') → t.nextChunkGen ≤ t'.nextChunkGen) :
    Keeps I (alloc next) := by
  refine Keeps.get_bind fun s h => ?_
  split
  · exact h
  · next n tree heq =>
      rw [wp_bind, wp_set]
      exact hq s _ ⟨rfl, hn _ _ _ heq⟩ h

theorem allocFileId_keeps : Keeps I allocFileId := by
  refine alloc_keeps hq fun t n t' h => ?_
  unfold DirectoryTree.allocFileId at h
  split at h
  · cases h
  · injection h with h
    injection h with _ h
    rw [← h]

theorem allocChunkGen_keeps : Keeps I allocChunkGen := by
  refine alloc_keeps hq fun t n t' h => ?_
  unfold DirectoryTree.allocChunkGen at h
  split at h
  · cases h
  · injection h with h
    injection h with _ h
    rw [← h]
    exact Nat.le_succ _

theorem allocChunkId_keeps : Keeps I allocChunkId := by
  refine alloc_keeps hq fun t n t' h => ?_
  unfold DirectoryTree.allocChunkId at h
  split at h
  · injection h with h
    injection h with _ h
    rw [← h]
  · split at h
    · cases h
    · injection h with h
      injection h with _ h
      rw [← h]

/-! ## Chunk slots -/

omit hq in
theorem slotsOnly_withIo {c : Container} {io : List Fault} : SlotsOnly c (c.withIo io) := rfl

omit hq in
theorem slotsOnly_storeSlot {c : Container} {io : List Fault} {off : Nat} {id : ChunkId} {slot : Slot}
    {written : Nat} : SlotsOnly c ((c.withIo io).storeSlot off id slot written) := rfl

theorem onContainer_keeps {m : ContainerM α}
    (hm : ∀ c, wp m (fun _ c' => SlotsOnly c c') (fun _ c' => SlotsOnly c c') c) :
    Keeps I (onContainer m) := by
  refine Keeps.zoom fun s h => ?_
  have hc : ∀ c', SlotsOnly s.container c' → I { s with container := c' } :=
    fun c' hc => hq s _ ⟨hc, le_refl _⟩ h
  exact wp_mono (hm s.container) (fun _ c' h' => hc c' h') fun _ c' h' => hc c' h'

omit hq in
theorem readChunk_slots {key : SubKey} {fileId idx : Nat} {chunk : ChunkRef} {c : Container} :
    wp (Container.readChunk key fileId idx chunk) (fun _ c' => SlotsOnly c c')
      (fun _ c' => SlotsOnly c c') c :=
  Container.readChunk_spec (fun _ _ _ => slotsOnly_withIo) (fun _ _ => rfl)
    fun _ _ _ => slotsOnly_withIo

theorem readChunk_keeps {id : FileId} {idx : Nat} {chunk : ChunkRef} :
    Keeps I (readChunk id idx chunk) :=
  Keeps.bind Keeps.get fun _ => onContainer_keeps hq fun _ => readChunk_slots

omit hq in
theorem overLimit_keeps : Keeps I overLimit :=
  Keeps.bind Keeps.get fun _ => Keeps.bind Keeps.fromExcept fun _ => Keeps.pure

omit hq in
theorem checkLimit_keeps : Keeps I checkLimit := by
  refine Keeps.bind Keeps.get fun _ => Keeps.ite ?_ Keeps.pure
  exact Keeps.bind (overLimit_keeps) fun _ => Keeps.ite Keeps.throw Keeps.pure

/-! ## Reading -/

theorem realSize_keeps {id : FileId} : Keeps I (realSize id) := by
  refine Keeps.bind (inodeOr_keeps) fun inode => Keeps.bind Keeps.get fun s => ?_
  refine Keeps.ite Keeps.pure (Keeps.ite Keeps.pure ?_)
  split
  · exact Keeps.pure
  · split
    · exact Keeps.bind (updateInode_keeps hq) fun _ => Keeps.pure
    · refine Keeps.bind (readChunk_keeps hq) fun pt => ?_
      refine Keeps.ite Keeps.throw (Keeps.ite Keeps.throw ?_)
      exact Keeps.bind (updateInode_keeps hq) fun _ => Keeps.pure

theorem stat_keeps {id : FileId} : Keeps I (stat id) :=
  Keeps.bind (realSize_keeps hq) fun _ => Keeps.bind (inodeOr_keeps) fun _ => Keeps.pure

theorem readLoop_keeps {id : FileId} {covered : List ChunkRef} {first offset stop len : Nat}
    {hide : Bool} (idxs : List Nat) (out : List UInt8) :
    Keeps I (readLoop id covered first offset stop len hide idxs out) := by
  induction idxs generalizing out with
  | nil => exact Keeps.pure
  | cons idx rest ih =>
      refine Keeps.bind Keeps.fromExcept fun _ => Keeps.bind Keeps.fromExcept fun _ => ?_
      refine Keeps.bind Keeps.fromExcept fun _ => Keeps.bind (readChunk_keeps hq) fun _ => ?_
      refine Keeps.bind Keeps.fromExcept fun _ => Keeps.bind Keeps.fromExcept fun _ => ?_
      exact Keeps.ite Keeps.throw (ih _)

theorem read_keeps {id : FileId} {offset len : Nat} : Keeps I (read id offset len) := by
  refine Keeps.bind (realSize_keeps hq) fun _ => Keeps.bind (inodeOr_keeps) fun _ => ?_
  refine Keeps.ite Keeps.throw (Keeps.ite Keeps.pure (Keeps.ite Keeps.throw ?_))
  refine Keeps.bind Keeps.fromExcept fun _ => Keeps.bind Keeps.get fun _ => ?_
  refine Keeps.bind Keeps.fromExcept fun _ => Keeps.bind Keeps.fromExcept fun _ => ?_
  refine Keeps.bind Keeps.fromExcept fun _ => Keeps.bind (inodeOr_keeps) fun _ => ?_
  refine Keeps.bind Keeps.fromExcept fun _ => Keeps.bind Keeps.fromExcept fun _ => ?_
  exact Keeps.bind (readLoop_keeps hq _ _) fun _ => Keeps.pure

/-! ## Spilling -/

theorem allocBlockRefs_keeps (n : Nat) (refs : List ChunkRef) :
    Keeps I (allocBlockRefs n refs) := by
  induction n generalizing refs with
  | zero => exact Keeps.pure
  | succ n ih =>
      refine Keeps.bind (allocChunkId_keeps hq) fun _ => ?_
      exact Keeps.bind (allocChunkGen_keeps hq) fun _ => ih _

theorem drainExternals_keeps {id : FileId} : Keeps I (drainExternals id) := by
  refine Keeps.bind (inodeOr_keeps) fun _ => ?_
  exact Keeps.bind (updateInode_keeps hq) fun _ => pushPending_keeps hq

variable (hc : ∀ id entries, Keeps I (writeExternalChainFor id entries))

include hc in
theorem spillInode_keeps {id : FileId} : Keeps I (spillInode id) := by
  refine Keeps.bind Keeps.get fun s => Keeps.bind (inodeOr_keeps) fun inode => ?_
  simp only
  split
  · exact Keeps.pure
  · refine Keeps.bind (drainExternals_keeps hq) fun _ => Keeps.ite ?_ Keeps.pure
    refine Keeps.bind (hc _ _) fun _ => ?_
    exact Keeps.bind (updateInode_keeps hq) fun _ => Keeps.pure

include hc in
theorem spillInodes_keeps (ids : List FileId) (onDisk : OrdMap FileId InodeV3OnDisk) :
    Keeps I (spillInodes ids onDisk) := by
  induction ids generalizing onDisk with
  | nil => exact Keeps.pure
  | cons id rest ih => exact Keeps.bind (spillInode_keeps hq hc) fun _ => ih _

include hc in
theorem spillToV3OnDisk_keeps : Keeps I spillToV3OnDisk := by
  refine Keeps.bind Keeps.get fun _ => Keeps.bind (spillInodes_keeps hq hc _ _) fun _ => ?_
  exact Keeps.bind Keeps.get fun _ => Keeps.pure

include hc in
theorem spillToV4OnDisk_keeps : Keeps I spillToV4OnDisk := by
  refine Keeps.bind (spillToV3OnDisk_keeps hq hc) fun _ => Keeps.bind Keeps.get fun _ => ?_
  exact Keeps.ite Keeps.throw Keeps.pure

omit hq in
theorem checkPayload_keeps {len : Nat} : Keeps I (checkPayload len) :=
  Keeps.ite Keeps.throw Keeps.pure

include hc in
theorem encodeMetadata_keeps : Keeps I encodeMetadata := by
  refine Keeps.bind Keeps.get fun s => ?_
  split
  · refine Keeps.bind (spillToV4OnDisk_keeps hq hc) fun _ => Keeps.bind Keeps.get fun _ => ?_
    exact Keeps.bind checkPayload_keeps fun _ => Keeps.pure
  · refine Keeps.bind (spillToV4OnDisk_keeps hq hc) fun _ => Keeps.bind Keeps.get fun _ => ?_
    exact Keeps.bind checkPayload_keeps fun _ => Keeps.pure
  · refine Keeps.bind (spillToV3OnDisk_keeps hq hc) fun _ => Keeps.bind Keeps.get fun _ => ?_
    exact Keeps.bind checkPayload_keeps fun _ => Keeps.pure
  · exact Keeps.bind checkPayload_keeps fun _ => Keeps.pure

/-! ## The namespace -/

theorem newEntry_keeps {parent : FileId} {name : String} {node : FileId → Nat → Inode} :
    Keeps I (newEntry parent name node) := by
  refine Keeps.bind (requireDir_keeps) fun _ => Keeps.ite Keeps.throw ?_
  refine Keeps.bind (allocFileId_keeps hq) fun _ => Keeps.bind nowNs_keeps fun _ => ?_
  refine Keeps.bind (modify_keeps hq fun _ => Silent.of_eq rfl rfl) fun _ => ?_
  refine Keeps.bind (updateInode_keeps hq) fun _ => ?_
  exact Keeps.bind (markDirty_keeps hq) fun _ => Keeps.pure

theorem mkdir_keeps {parent : FileId} {name : String} : Keeps I (mkdir parent name) :=
  Keeps.bind ensureWritable_keeps fun _ => Keeps.bind Keeps.fromExcept fun _ => newEntry_keeps hq

theorem createWithMode_keeps {parent : FileId} {name : String} {mode : Nat} :
    Keeps I (createWithMode parent name mode) := by
  refine Keeps.bind ensureWritable_keeps fun _ => Keeps.bind Keeps.fromExcept fun _ => ?_
  refine Keeps.bind (newEntry_keeps hq) fun _ => ?_
  exact Keeps.bind (modify_keeps hq fun _ => Silent.of_eq rfl rfl) fun _ => Keeps.pure

theorem symlink_keeps {parent : FileId} {name target : String} :
    Keeps I (symlink parent name target) := by
  refine Keeps.bind ensureWritable_keeps fun _ => Keeps.bind Keeps.fromExcept fun _ => ?_
  exact Keeps.ite Keeps.throw (newEntry_keeps hq)

theorem link_keeps {target newParent : FileId} {newName : String} :
    Keeps I (link target newParent newName) := by
  refine Keeps.bind ensureWritable_keeps fun _ => Keeps.bind Keeps.fromExcept fun _ => ?_
  refine Keeps.bind (inodeOr_keeps) fun _ => ?_
  split
  · exact Keeps.throw
  · exact Keeps.throw
  · refine Keeps.ite Keeps.throw (Keeps.bind (requireDir_keeps) fun _ => ?_)
    refine Keeps.ite Keeps.throw (Keeps.bind (updateInode_keeps hq) fun _ => ?_)
    exact Keeps.bind (updateInode_keeps hq) fun _ => markDirty_keeps hq

theorem dropLink_keeps {id : FileId} : Keeps I (dropLink id) := by
  refine Keeps.bind (updateInode_keeps hq) fun _ => ?_
  exact Keeps.bind (inodeOr_keeps) fun _ => Keeps.pure

theorem freeInode_keeps {id : FileId} : Keeps I (freeInode id) := by
  refine Keeps.bind (inodeOr_keeps) fun _ => Keeps.bind (pushPending_keeps hq) fun _ => ?_
  exact Keeps.bind (pushPending_keeps hq) fun _ => modify_keeps hq fun _ => Silent.of_eq rfl rfl

theorem adoptSurvivor_keeps {parent target : FileId} : Keeps I (adoptSurvivor parent target) := by
  refine Keeps.bind Keeps.get fun s => Keeps.ite ?_ Keeps.pure
  split
  · exact updateInode_keeps hq
  · exact Keeps.pure

theorem unlink_keeps {parent : FileId} {name : String} : Keeps I (unlink parent name) := by
  refine Keeps.bind ensureWritable_keeps fun _ => Keeps.bind (requireDir_keeps) fun _ => ?_
  refine Keeps.bind orThrow_keeps fun _ => Keeps.bind (inodeOr_keeps) fun _ => ?_
  refine Keeps.ite Keeps.throw (Keeps.bind (updateInode_keeps hq) fun _ => ?_)
  refine Keeps.bind (dropLink_keeps hq) fun _ => Keeps.ite ?_ ?_
  · exact Keeps.bind (freeInode_keeps hq) fun _ => markDirty_keeps hq
  · exact Keeps.bind (adoptSurvivor_keeps hq) fun _ => markDirty_keeps hq

theorem rmdir_keeps {parent : FileId} {name : String} : Keeps I (rmdir parent name) := by
  refine Keeps.bind ensureWritable_keeps fun _ => Keeps.bind (requireDir_keeps) fun _ => ?_
  refine Keeps.bind orThrow_keeps fun _ => Keeps.bind (inodeOr_keeps) fun _ => ?_
  refine Keeps.ite Keeps.throw (Keeps.ite Keeps.throw ?_)
  refine Keeps.bind (modify_keeps hq fun _ => Silent.of_eq rfl rfl) fun _ => ?_
  exact Keeps.bind (updateInode_keeps hq) fun _ => markDirty_keeps hq

omit hq in
theorem checkDisplaced_keeps {src dst : FileId} {kind : InodeKind} :
    Keeps I (checkDisplaced src dst kind) := by
  refine Keeps.ite Keeps.pure (Keeps.bind (inodeOr_keeps) fun _ => ?_)
  split
  · exact Keeps.ite Keeps.throw Keeps.pure
  · exact Keeps.throw
  · exact Keeps.throw
  · exact Keeps.pure

theorem displace_keeps {dst : FileId} : Keeps I (displace dst) :=
  Keeps.bind (dropLink_keeps hq) fun _ => Keeps.ite (freeInode_keeps hq) Keeps.pure

theorem moveEntry_keeps {oldParent newParent : FileId} {oldName newName : String} :
    Keeps I (moveEntry oldParent oldName newParent newName) := by
  refine Keeps.bind ?_ fun _ => Keeps.bind (updateInode_keeps hq) fun _ => ?_
  · refine Keeps.bind (inodeOr_keeps) fun _ => Keeps.bind orThrow_keeps fun _ => ?_
    exact Keeps.bind (updateInode_keeps hq) fun _ => Keeps.pure
  · exact Keeps.ite Keeps.pure (modify_keeps hq fun _ => Silent.of_eq rfl rfl)

theorem rename_keeps {oldParent newParent : FileId} {oldName newName : String} :
    Keeps I (rename oldParent oldName newParent newName) := by
  refine Keeps.bind ensureWritable_keeps fun _ => Keeps.bind Keeps.fromExcept fun _ => ?_
  refine Keeps.bind Keeps.fromExcept fun _ => Keeps.ite ?_ ?_
  · exact Keeps.bind (requireDir_keeps) fun _ => Keeps.ite Keeps.pure Keeps.throw
  refine Keeps.bind (requireDir_keeps) fun _ => Keeps.bind orThrow_keeps fun _ => ?_
  refine Keeps.bind (requireDir_keeps) fun _ => Keeps.bind (inodeOr_keeps) fun _ => ?_
  refine Keeps.bind Keeps.get fun _ => Keeps.ite Keeps.throw ?_
  split
  · exact Keeps.bind (moveEntry_keeps hq) fun _ => markDirty_keeps hq
  · refine Keeps.bind (checkDisplaced_keeps) fun _ => ?_
    split
    · exact Keeps.pure
    · refine Keeps.bind (displace_keeps hq) fun _ => ?_
      exact Keeps.bind (moveEntry_keeps hq) fun _ => markDirty_keeps hq

theorem setAttr_keeps {id : FileId} {f : Inode → Inode} : Keeps I (setAttr id f) := by
  refine Keeps.bind ensureWritable_keeps fun _ => Keeps.bind (inodeOr_keeps) fun _ => ?_
  exact modify_keeps hq fun _ => Silent.of_eq rfl rfl

/-! ## Size and settings -/

theorem setMaxVaultSize_keeps {bytes : Nat} : Keeps I (setMaxVaultSize bytes) := by
  refine Keeps.bind ensureWritable_keeps fun _ => Keeps.get_bind fun s h => ?_
  split
  · exact h
  · split
    · exact h
    · split
      · exact hq s _ (Silent.of_eq rfl rfl) h
      · exact h

theorem dataFileLen_keeps : Keeps I (onContainer Container.dataFileLen) := by
  refine onContainer_keeps hq fun c => ?_
  unfold Container.dataFileLen
  rw [wp_bind]
  exact Container.ioCall_spec (fun _ => slotsOnly_withIo) fun _ => slotsOnly_withIo

theorem spaceReport_keeps : Keeps I spaceReport := by
  refine Keeps.bind (dataFileLen_keeps hq) fun _ => Keeps.bind Keeps.get fun _ => ?_
  refine Keeps.bind Keeps.fromExcept fun _ => Keeps.bind Keeps.fromExcept fun _ => ?_
  refine Keeps.bind Keeps.fromExcept fun _ => Keeps.bind Keeps.fromExcept fun _ => ?_
  exact Keeps.bind Keeps.fromExcept fun _ => Keeps.pure

end QuietPrograms

/-! ## Programs that may flush -/

section Slots

variable (hq : Unmoved I) (hf : Keeps I flush)
include hq hf

theorem allocSlot_keeps {recycleMin : Nat} : Keeps I (allocSlot recycleMin) := by
  refine Keeps.bind Keeps.get fun s => Keeps.ite ?_ (allocChunkId_keeps hq)
  have hrest : Keeps I (do checkLimit; allocChunkId) :=
    Keeps.bind checkLimit_keeps fun _ => allocChunkId_keeps hq
  exact Keeps.bind overLimit_keeps fun _ => Keeps.ite (Keeps.bind hf fun _ => hrest) hrest

theorem rewriteTarget_keeps {cur : ChunkRef} : Keeps I (rewriteTarget cur) := by
  refine Keeps.bind (allocChunkGen_keeps hq) fun _ => Keeps.bind Keeps.get fun _ => ?_
  refine Keeps.ite Keeps.pure ?_
  refine Keeps.bind (Keeps.attempt (allocSlot_keeps hq hf)) fun r => ?_
  split
  · exact Keeps.pure
  · exact Keeps.pure
  · exact Keeps.throw

end Slots

/-- The programs that seal chunks of files keep the invariant, and so does a
flush. -/
structure Writes (I : Vfs → Prop) : Prop where
  flush : Keeps I flush
  place : ∀ id idx cur pt, Keeps I (rewriteInPlace id idx cur pt)
  rewrite : ∀ id idx cur pt, Keeps I (rewriteChunk id idx cur pt)
  zeros : ∀ id growFrom missing appended, Keeps I (extendWithZeros id growFrom missing appended)

section FlushingPrograms

variable (hq : Unmoved I) (hf : Writes I)
include hq hf

theorem scrubChunk_keeps {id : FileId} {idx start stop : Nat} {cur : ChunkRef} :
    Keeps I (scrubChunk id idx cur start stop) := by
  refine Keeps.bind (readChunk_keeps hq) fun _ => Keeps.bind Keeps.fromExcept fun _ => ?_
  exact Keeps.ite Keeps.pure (Keeps.bind (hf.rewrite _ _ _ _) fun _ => Keeps.pure)

theorem scrubGap_keeps {id : FileId} {oldReal offset : Nat} {hide : Bool} (idxs : List Nat)
    (done : Rewrites) : Keeps I (scrubGap id oldReal offset hide idxs done) := by
  induction idxs generalizing done with
  | nil => exact Keeps.pure
  | cons idx rest ih =>
      refine Keeps.bind Keeps.fromExcept fun r => ?_
      split
      · exact ih _
      · refine Keeps.bind inodeOr_keeps fun _ => Keeps.bind Keeps.fromExcept fun _ => ?_
        refine Keeps.bind (scrubChunk_keeps hq hf) fun r => ?_
        split
        · exact ih _
        · exact ih _

theorem zeroFillLoop_keeps {id : FileId} {lo hi : Nat} {hide : Bool} (idxs : List Nat)
    (chunks : List ChunkRef) (retired : List ChunkId) :
    Keeps I (zeroFillLoop id lo hi hide idxs chunks retired) := by
  induction idxs generalizing chunks retired with
  | nil => exact Keeps.pure
  | cons idx rest ih =>
      refine Keeps.bind Keeps.fromExcept fun r => ?_
      split
      · exact ih _ _
      · refine Keeps.bind Keeps.fromExcept fun _ => ?_
        refine Keeps.bind (scrubChunk_keeps hq hf) fun r => ?_
        split
        · exact ih _ _
        · exact ih _ _

theorem zeroFillExistingRange_keeps {id : FileId} {chunks : List ChunkRef} {lo hi : Nat}
    {hide : Bool} : Keeps I (zeroFillExistingRange id chunks lo hi hide) := by
  refine Keeps.ite Keeps.pure (Keeps.bind Keeps.fromExcept fun _ => ?_)
  refine Keeps.bind Keeps.fromExcept fun _ => Keeps.bind Keeps.fromExcept fun _ => ?_
  exact Keeps.bind Keeps.fromExcept fun _ => zeroFillLoop_keeps hq hf _ _ _

theorem writeLoop_keeps {w : WriteArgs} {covered : List ChunkRef} (idxs : List Nat) (pos : Nat)
    (done : Rewrites) (appended : List ChunkRef) :
    Keeps I (writeLoop w covered idxs pos done appended) := by
  induction idxs generalizing pos done appended with
  | nil => exact Keeps.pure
  | cons idx rest ih =>
      refine Keeps.bind Keeps.fromExcept fun _ => Keeps.bind Keeps.fromExcept fun _ => ?_
      refine Keeps.bind (readChunk_keeps hq) fun _ => Keeps.bind Keeps.fromExcept fun _ => ?_
      refine Keeps.ite ?_ ?_
      · exact Keeps.bind (hf.rewrite _ _ _ _) fun _ => ih _ _ _
      · exact Keeps.bind (hf.place _ _ _ _) fun _ => ih _ _ _

omit hq hf in
theorem currentChunk0_keeps {w : WriteArgs} {done : Rewrites} {appended : List ChunkRef} :
    Keeps I (currentChunk0 w done appended) := by
  unfold currentChunk0
  split
  · exact Keeps.pure
  · refine Keeps.ite ?_ Keeps.fromExcept
    exact Keeps.bind inodeOr_keeps fun _ => Keeps.fromExcept

theorem refreshSizeHeader_keeps {w : WriteArgs} {done : Rewrites} {appended : List ChunkRef} :
    Keeps I (refreshSizeHeader w done appended) := by
  refine Keeps.bind currentChunk0_keeps fun _ => Keeps.bind (readChunk_keeps hq) fun _ => ?_
  refine Keeps.ite ?_ ?_
  · exact Keeps.bind (hf.rewrite _ _ _ _) fun _ => Keeps.pure
  · exact Keeps.bind (hf.place _ _ _ _) fun _ => Keeps.pure

omit hf in
theorem commitInode_keeps {id : FileId} {chunks : List ChunkRef} {newReal : Nat} {hide : Bool}
    {freed : List ChunkId} : Keeps I (commitInode id chunks newReal hide freed) := by
  refine Keeps.bind Keeps.fromExcept fun _ => Keeps.bind nowNs_keeps fun _ => ?_
  refine Keeps.bind (updateInode_keeps hq) fun _ => ?_
  exact modify_keeps hq fun _ => Silent.of_eq rfl rfl

omit hq hf in
theorem coveredRefs_keeps {w : WriteArgs} {last : Nat} : Keeps I (coveredRefs w last) := by
  refine Keeps.bind Keeps.fromExcept fun _ => Keeps.ite ?_ Keeps.pure
  exact Keeps.bind inodeOr_keeps fun _ => Keeps.fromExcept

theorem scrubHole_keeps {w : WriteArgs} : Keeps I (scrubHole w) := by
  refine Keeps.ite ?_ Keeps.pure
  exact Keeps.bind Keeps.fromExcept fun _ => scrubGap_keeps hq hf _ _

theorem writeData_keeps {w : WriteArgs} {count last : Nat} : Keeps I (writeData w count last) := by
  refine Keeps.bind (hf.zeros _ _ _ _) fun _ => ?_
  refine Keeps.bind coveredRefs_keeps fun _ => Keeps.bind (scrubHole_keeps hq hf) fun _ => ?_
  refine Keeps.bind (writeLoop_keeps hq hf _ _ _ _) fun _ => ?_
  refine Keeps.bind (Keeps.ite (refreshSizeHeader_keeps hq hf) Keeps.pure) fun _ => ?_
  refine Keeps.bind inodeOr_keeps fun _ => Keeps.bind Keeps.fromExcept fun _ => ?_
  exact Keeps.pure

theorem writeSized_keeps {id : FileId} {offset : Nat} {buf : List UInt8} {oldReal : Nat} :
    Keeps I (writeSized id offset buf oldReal) := by
  refine Keeps.bind inodeOr_keeps fun _ => Keeps.ite Keeps.throw (Keeps.ite Keeps.throw ?_)
  refine Keeps.ite Keeps.throw (Keeps.bind Keeps.get fun _ => ?_)
  refine Keeps.bind Keeps.fromExcept fun _ => Keeps.bind Keeps.fromExcept fun _ => ?_
  refine Keeps.bind Keeps.fromExcept fun _ => Keeps.bind Keeps.fromExcept fun _ => ?_
  have hrest : ∀ {w : WriteArgs} {count last newReal n : Nat} {hide : Bool}, Keeps I
      (writeData w count last >>= fun out =>
        commitInode id out.1 newReal hide out.2 >>= fun _ => pure n) := by
    intro w count last newReal n hide
    refine Keeps.bind (writeData_keeps hq hf) fun _ => ?_
    exact Keeps.bind (commitInode_keeps hq) fun _ => Keeps.pure
  exact Keeps.ite (Keeps.bind Keeps.fromExcept fun _ => hrest) hrest

theorem write_keeps {id : FileId} {offset : Nat} {buf : List UInt8} :
    Keeps I (write id offset buf) := by
  refine Keeps.bind ensureWritable_keeps fun _ => Keeps.ite Keeps.pure ?_
  have hrest : Keeps I (do
      let oldReal ← realSize id
      writeSized id offset buf oldReal) :=
    Keeps.bind (realSize_keeps hq) fun _ => writeSized_keeps hq hf
  exact Keeps.bind Keeps.get fun _ => Keeps.ite (Keeps.bind hf.flush fun _ => hrest) hrest

theorem truncateHeader_keeps {id : FileId} {newSize : Nat} {chunks : List ChunkRef} :
    Keeps I (truncateHeader id newSize chunks) := by
  unfold truncateHeader
  split
  · exact Keeps.pure
  · refine Keeps.bind (readChunk_keeps hq) fun _ => ?_
    exact Keeps.bind (hf.rewrite _ _ _ _) fun _ => Keeps.pure

theorem truncateData_keeps {id : FileId} {oldReal newSize count : Nat} {hide : Bool}
    {kept : List ChunkRef} : Keeps I (truncateData id oldReal newSize count hide kept) := by
  refine Keeps.bind (Keeps.ite (zeroFillExistingRange_keeps hq hf) Keeps.pure) fun _ => ?_
  refine Keeps.bind (hf.zeros _ _ _ _) fun _ => ?_
  refine Keeps.bind (Keeps.ite (truncateHeader_keeps hq hf) Keeps.pure) fun _ => ?_
  exact Keeps.pure

theorem truncate_keeps {id : FileId} {newSize : Nat} : Keeps I (truncate id newSize) := by
  refine Keeps.bind ensureWritable_keeps fun _ => Keeps.ite Keeps.throw ?_
  refine Keeps.bind (realSize_keeps hq) fun _ => Keeps.bind inodeOr_keeps fun _ => ?_
  refine Keeps.ite Keeps.throw (Keeps.bind Keeps.get fun _ => Keeps.bind Keeps.fromExcept fun _ => ?_)
  have hrest : ∀ {oldReal count : Nat} {hide : Bool} {kept : List ChunkRef} {freed : List ChunkId},
      Keeps I (truncateData id oldReal newSize count hide kept >>= fun out =>
        commitInode id out.1 newSize hide (freed ++ out.2)) := by
    intro oldReal count hide kept freed
    exact Keeps.bind (truncateData_keeps hq hf) fun _ => commitInode_keeps hq
  exact Keeps.ite (Keeps.bind Keeps.fromExcept fun _ => hrest) hrest

/-! ## Shrinking -/

variable (hcut : ∀ len, Keeps I (onContainer (Container.truncateDataFile len)))
include hcut

theorem shrinkTail_keeps : Keeps I shrinkTail := by
  refine Keeps.bind hf.flush fun _ => Keeps.bind Keeps.get fun _ => Keeps.bind Keeps.fromExcept fun keep => ?_
  have hrest : Keeps I (do
      let s ← get
      let newLen ← fromExcept (slotOffset s.dataOffset s.tree.nextChunkId)
      let oldLen ← onContainer Container.dataFileLen
      if oldLen ≤ newLen then pure 0
      else do
        onContainer (Container.truncateDataFile newLen)
        pure (oldLen - newLen)) := by
    refine Keeps.bind Keeps.get fun _ => Keeps.bind Keeps.fromExcept fun _ => ?_
    refine Keeps.bind (dataFileLen_keeps hq) fun _ => Keeps.ite Keeps.pure ?_
    exact Keeps.bind (hcut _) fun _ => Keeps.pure
  refine Keeps.ite ?_ hrest
  refine Keeps.bind (modify_keeps hq fun _ => Silent.of_eq rfl rfl) fun _ => ?_
  exact Keeps.bind hf.flush fun _ => hrest

theorem shrink_keeps : Keeps I shrink := by
  refine Keeps.bind ensureWritable_keeps fun _ => Keeps.bind Keeps.get fun _ => ?_
  exact Keeps.ite Keeps.throw (shrinkTail_keeps hq hf hcut)

omit hf hcut in
theorem giveBack_keeps : Keeps I giveBack := by
  refine Keeps.bind Keeps.get fun s => ?_
  split
  · exact Keeps.pure
  · exact Keeps.pure
  · exact Keeps.bind (spaceReport_keeps hq) fun _ => Keeps.bind Keeps.get fun _ => Keeps.pure

theorem finish_keeps : Keeps I finish := by
  refine Keeps.bind hf.flush fun _ => Keeps.bind Keeps.get fun _ => Keeps.ite Keeps.pure ?_
  refine Keeps.bind (giveBack_keeps hq) fun _ => ?_
  exact Keeps.ite (shrink_keeps hq hf hcut) Keeps.pure

/-- Every call keeps an invariant that quiet steps, a flush, the cut of the file
and the opening of what a session left behind keep. -/
theorem exec_keeps (op : Op) (hopen : op = .reopen → Keeps I reopen) : Keeps I (exec op) := by
  cases op with
  | lookup parent name =>
      exact Keeps.map (Keeps.bind requireDir_keeps fun _ => orThrow_keeps)
  | readdir id =>
      exact Keeps.map (Keeps.bind requireDir_keeps fun _ => Keeps.bind Keeps.get fun _ => Keeps.pure)
  | parentOf id => exact Keeps.map (Keeps.bind inodeOr_keeps fun _ => Keeps.pure)
  | readlink id =>
      exact Keeps.map (Keeps.bind inodeOr_keeps fun _ => Keeps.ite Keeps.throw orThrow_keeps)
  | stat id => exact Keeps.map (stat_keeps hq)
  | read id offset bufLen => exact Keeps.map (read_keeps hq)
  | mkdir parent name => exact Keeps.map (mkdir_keeps hq)
  | create parent name mode => exact Keeps.map (createWithMode_keeps hq)
  | symlink parent name target => exact Keeps.map (symlink_keeps hq)
  | link targetId newParent newName => exact Keeps.map (link_keeps hq)
  | unlink parent name => exact Keeps.map (unlink_keeps hq)
  | rmdir parent name => exact Keeps.map (rmdir_keeps hq)
  | rename oldParent oldName newParent newName => exact Keeps.map (rename_keeps hq)
  | chmod id mode => exact Keeps.map (setAttr_keeps hq)
  | setMtime id mtimeNs => exact Keeps.map (setAttr_keeps hq)
  | write id offset buf => exact Keeps.map (write_keeps hq hf)
  | truncate id newSize => exact Keeps.map (truncate_keeps hq hf)
  | flush => exact Keeps.map hf.flush
  | setMaxVaultSize bytes => exact Keeps.map (setMaxVaultSize_keeps hq)
  | setShrinkMode mode =>
      exact Keeps.map (modify_keeps hq fun _ => Silent.of_eq rfl rfl)
  | spaceReport => exact Keeps.map (spaceReport_keeps hq)
  | shrink => exact Keeps.map (shrink_keeps hq hf hcut)
  | shrinkAllowDeniable =>
      exact Keeps.map (Keeps.bind ensureWritable_keeps fun _ => shrinkTail_keeps hq hf hcut)
  | finish => exact Keeps.map (finish_keeps hq hf hcut)
  | reopen => exact Keeps.map (hopen rfl)

end FlushingPrograms

/-! ## Invariants that do not see seals -/

section Unsealed

variable (hq : Unhurt I)
include hq

theorem onContainer_writes {m : ContainerM α} (hm : ∀ c, wp m
    (fun _ c' => SlotsOnly { c with seals := c'.seals } c')
    (fun _ c' => SlotsOnly { c with seals := c'.seals } c') c) : Keeps I (onContainer m) := by
  refine Keeps.zoom fun s h => ?_
  have hc : ∀ c', SlotsOnly { s.container with seals := c'.seals } c' →
      I { s with container := c' } := fun c' hc => hq s _ ⟨hc, le_refl _⟩ h
  exact wp_mono (hm s.container) (fun _ c' h' => hc c' h') fun _ c' h' => hc c' h'

omit hq in
theorem writeChunk_slots {key : SubKey} {fileId idx : Nat} {chunk : ChunkRef} {pt : Chunk}
    {c : Container} :
    wp (Container.writeChunk key fileId idx chunk pt)
      (fun _ c' => SlotsOnly { c with seals := c'.seals } c')
      (fun _ c' => SlotsOnly { c with seals := c'.seals } c') c :=
  Container.writeChunk_spec (fun _ _ _ => rfl) (fun _ _ => rfl) (fun _ _ _ => rfl)
    fun _ _ _ _ _ _ => rfl

theorem writeChunk_keeps {id : FileId} {idx : Nat} {chunk : ChunkRef} {pt : Chunk} :
    Keeps I (writeChunk id idx chunk pt) :=
  Keeps.bind Keeps.get fun _ => onContainer_writes hq fun _ => writeChunk_slots

omit hq in
theorem writeChunkListBlock_slots {fileId idx : Nat} {chunk : ChunkRef} {entries : List ChunkRef}
    {next : Option ChunkRef} {c : Container} :
    wp (Container.writeChunkListBlock fileId idx chunk entries next)
      (fun _ c' => SlotsOnly { c with seals := c'.seals } c')
      (fun _ c' => SlotsOnly { c with seals := c'.seals } c') c := by
  unfold Container.writeChunkListBlock
  rw [wp_bind, wp_get, wp_bind]
  cases encodeChunkListBlock c.env.padding entries next with
  | error e => exact rfl
  | ok pt => exact writeChunk_slots

theorem writeListBlocks_keeps {id : FileId} {entries : List ChunkRef} (idx : Nat)
    (blocks : List ChunkRef) : Keeps I (writeListBlocks id entries idx blocks) := by
  induction blocks generalizing idx with
  | nil => exact Keeps.pure
  | cons block rest ih =>
      refine Keeps.bind Keeps.fromExcept fun _ => ?_
      exact Keeps.bind (onContainer_writes hq fun _ => writeChunkListBlock_slots) fun _ => ih _

theorem writeExternalChainFor_keeps (id : FileId) (entries : List ChunkRef) :
    Keeps I (writeExternalChainFor id entries) := by
  refine Keeps.bind (allocBlockRefs_keeps hq.unmoved _ _) fun _ => ?_
  refine Keeps.bind (writeListBlocks_keeps hq _ _) fun _ => ?_
  exact Keeps.bind Keeps.fromExcept fun _ => Keeps.pure

theorem rewriteInPlace_keeps {id : FileId} {idx : Nat} {cur : ChunkRef} {pt : Chunk} :
    Keeps I (rewriteInPlace id idx cur pt) := by
  refine Keeps.bind (allocChunkGen_keeps hq.unmoved) fun _ => ?_
  exact Keeps.bind (writeChunk_keeps hq) fun _ => Keeps.pure

variable (hf : Keeps I flush)
include hf

theorem rewriteChunk_keeps {id : FileId} {idx : Nat} {cur : ChunkRef} {pt : Chunk} :
    Keeps I (rewriteChunk id idx cur pt) := by
  refine Keeps.bind (rewriteTarget_keeps hq.unmoved hf) fun _ => ?_
  refine Keeps.bind (Keeps.attempt (writeChunk_keeps hq)) fun r => ?_
  split
  · exact Keeps.pure
  · refine Keeps.ite ?_ Keeps.throw
    exact Keeps.bind (pushPending_keeps hq.unmoved) fun _ => Keeps.throw

theorem extendWithZeros_keeps {id : FileId} {growFrom : Nat} (missing : Nat)
    (appended : List ChunkRef) : Keeps I (extendWithZeros id growFrom missing appended) := by
  induction missing generalizing appended with
  | zero => exact Keeps.pure
  | succ missing ih =>
      refine Keeps.bind (Keeps.attempt (allocSlot_keeps hq.unmoved hf)) fun r => ?_
      split
      · exact Keeps.bind (pushPending_keeps hq.unmoved) fun _ => Keeps.throw
      · refine Keeps.bind (allocChunkGen_keeps hq.unmoved) fun _ => ?_
        refine Keeps.bind Keeps.fromExcept fun _ => ?_
        refine Keeps.bind (Keeps.attempt (writeChunk_keeps hq)) fun r => ?_
        split
        · refine Keeps.bind (pushPending_keeps hq.unmoved) fun _ => ?_
          exact Keeps.bind (pushPending_keeps hq.unmoved) fun _ => Keeps.throw
        · exact ih _

theorem writes_of_unhurt : Writes I where
  flush := hf
  place := fun _ _ _ _ => rewriteInPlace_keeps hq
  rewrite := fun _ _ _ _ => rewriteChunk_keeps hq hf
  zeros := fun _ _ _ _ => extendWithZeros_keeps hq hf _ _

end Unsealed


end Vfs

end Luksbox
