import Luksbox.Proofs.GenerationRuns

/-!
# No AAD twice

Every `write_chunk` is to be given a generation that was just taken from the
counter. `Reserved R` is what makes that a fact about whole runs: the
generations sealed so far and those of `R`, which a running call has taken and
not used yet, are all different and all below the counter. Taking one puts it
into `R`, sealing moves it out, and everything else in between, a flush inside
a write included, may only take and use further ones.

The counter is kept in memory. A session starts from the one in the metadata on
the disk, so the argument goes on in the next session exactly if that one is
above everything sealed before. A session that dies between a chunk write and
the next flush leaves it below.
-/

namespace Luksbox

open Lib

def Seal.generation (x : Seal) : Nat := x.aad.generation

/-- The generations of all chunks sealed so far. -/
def Container.sealedGens (c : Container) : List Nat := c.seals.map Seal.generation

structure Reserved (R : List Nat) (s : Vfs) : Prop where
  once : (R ++ s.container.sealedGens).Nodup
  below : ∀ g ∈ R ++ s.container.sealedGens, g < s.tree.nextChunkGen

namespace Reserved

variable {R : List Nat} {s s' : Vfs} {g : Nat}

theorem mono (h : Reserved R s) (hs : s'.container.seals = s.container.seals)
    (hg : s.tree.nextChunkGen ≤ s'.tree.nextChunkGen) : Reserved R s' := by
  have hgens : s'.container.sealedGens = s.container.sealedGens := by
    unfold Container.sealedGens
    rw [hs]
  refine ⟨by rw [hgens]; exact h.once, fun g hgen => ?_⟩
  rw [hgens] at hgen
  exact (h.below g hgen).trans_le hg

/-- The generation at the counter is new. -/
theorem taken (h : Reserved R s) (hs : s'.container.seals = s.container.seals)
    (hg : s'.tree.nextChunkGen = s.tree.nextChunkGen + 1) :
    Reserved (s.tree.nextChunkGen :: R) s' := by
  have hgens : s'.container.sealedGens = s.container.sealedGens := by
    unfold Container.sealedGens
    rw [hs]
  refine ⟨?_, fun g hgen => ?_⟩
  · rw [hgens, List.cons_append, List.nodup_cons]
    exact ⟨fun hmem => Nat.lt_irrefl _ (h.below _ hmem), h.once⟩
  · rw [hgens, List.cons_append, List.mem_cons] at hgen
    rw [hg]
    rcases hgen with hgen | hgen
    · rw [hgen]
      exact Nat.lt_succ_self _
    · exact Nat.lt_succ_of_lt (h.below g hgen)

/-- A generation that was taken need not be used. -/
theorem drop (h : Reserved (g :: R) s) : Reserved R s := by
  have honce := h.once
  rw [List.cons_append, List.nodup_cons] at honce
  exact ⟨honce.2, fun g' hg' => h.below g' (List.mem_cons_of_mem _ hg')⟩

theorem dropAll {L : List Nat} (h : Reserved (L ++ R) s) : Reserved R s := by
  induction L with
  | nil => exact h
  | cons g L ih => exact ih h.drop

theorem perm {R' : List Nat} (h : Reserved R s) (hp : R.Perm R') : Reserved R' s := by
  have hall := hp.append_right s.container.sealedGens
  exact ⟨hall.nodup_iff.mp h.once, fun g hg => h.below g (hall.mem_iff.mpr hg)⟩

/-- Sealing uses it. -/
theorem used {x : Seal} (h : Reserved (g :: R) s) (hx : x.generation = g)
    (hs : s'.container.seals = x :: s.container.seals)
    (hg : s'.tree.nextChunkGen = s.tree.nextChunkGen) : Reserved R s' := by
  have hgens : s'.container.sealedGens = g :: s.container.sealedGens := by
    unfold Container.sealedGens
    rw [hs, List.map_cons, hx]
  have hperm : (R ++ g :: s.container.sealedGens).Perm (g :: (R ++ s.container.sealedGens)) :=
    List.perm_middle
  refine ⟨?_, fun g' hg' => ?_⟩
  · rw [hgens]
    exact hperm.nodup_iff.mpr h.once
  · rw [hgens] at hg'
    rw [hg]
    exact h.below g' (hperm.mem_iff.mp hg')

theorem unmoved : Unmoved (Reserved R) := by
  intro s s' hq h
  refine h.mono ?_ hq.generation
  rw [hq.container]

end Reserved

namespace Vfs

variable {R : List Nat} {s : Vfs} {α : Type}

/-! ## Taking and using a generation -/

theorem allocChunkGen_takes (h : Reserved R s) :
    wp allocChunkGen (fun g s' => Reserved (g :: R) s') (fun _ s' => Reserved R s') s := by
  unfold allocChunkGen
  rw [wp_alloc]
  refine ⟨fun g tree hg => ?_, fun _ => h⟩
  unfold DirectoryTree.allocChunkGen at hg
  split at hg
  · cases hg
  · injection hg with hg
    injection hg with hgen htree
    rw [← hgen]
    refine h.taken rfl ?_
    show tree.nextChunkGen = _
    rw [← htree]

/-- The seal of a chunk, whether or not the write returns. -/
theorem container_uses {key : SubKey} {id : FileId} {idx : Nat} {chunk : ChunkRef} {pt : Chunk}
    (h : Reserved (chunk.generation :: R) s) :
    wp (Container.writeChunk key id idx chunk pt) (fun _ c => Reserved R { s with container := c })
      (fun _ c => Reserved R { s with container := c }) s.container :=
  Container.writeChunk_spec (fun _ _ _ => h.used rfl rfl rfl) (fun _ _ => h.drop)
    (fun _ _ _ => h.used rfl rfl rfl) fun _ _ _ _ _ _ => h.used rfl rfl rfl

theorem writeChunk_uses {id : FileId} {idx : Nat} {chunk : ChunkRef} {pt : Chunk}
    (h : Reserved (chunk.generation :: R) s) :
    wp (writeChunk id idx chunk pt) (fun _ s' => Reserved R s') (fun _ s' => Reserved R s') s := by
  unfold writeChunk
  rw [wp_bind, wp_get, wp_onContainer]
  exact container_uses h

theorem rewriteInPlace_reserved {id : FileId} {idx : Nat} {cur : ChunkRef} {pt : Chunk} :
    Keeps (Reserved R) (rewriteInPlace id idx cur pt) := by
  intro s h
  unfold rewriteInPlace
  rw [wp_bind]
  refine wp_mono (allocChunkGen_takes h) ?_ fun _ _ h' => h'
  intro g s₁ h₁
  rw [wp_bind]
  exact wp_mono (writeChunk_uses h₁) (fun _ _ h' => h') fun _ _ h' => h'

/-! ## A chain of list blocks -/

theorem allocBlockRefs_takes (n : Nat) (refs : List ChunkRef)
    (h : Reserved (refs.map ChunkRef.generation ++ R) s) :
    wp (allocBlockRefs n refs)
      (fun refs' s' => Reserved (refs'.map ChunkRef.generation ++ R) s')
      (fun _ s' => Reserved R s') s := by
  induction n generalizing refs s with
  | zero => exact h
  | succ n ih =>
      unfold allocBlockRefs
      rw [wp_bind]
      refine wp_mono (allocChunkId_keeps Reserved.unmoved s h) ?_ fun _ _ h' => h'.dropAll
      intro id s₁ h₁
      rw [wp_bind]
      refine wp_mono (allocChunkGen_takes h₁) ?_ fun _ _ h' => h'.dropAll
      intro g s₂ h₂
      refine ih (refs ++ [⟨id, g⟩]) (h₂.perm ?_)
      rw [List.map_append, List.append_assoc]
      exact List.perm_middle.symm

theorem writeChunkListBlock_uses {id : FileId} {idx : Nat} {chunk : ChunkRef}
    {entries : List ChunkRef} {next : Option ChunkRef} (h : Reserved (chunk.generation :: R) s) :
    wp (onContainer (Container.writeChunkListBlock id idx chunk entries next))
      (fun _ s' => Reserved R s') (fun _ s' => Reserved R s') s := by
  rw [wp_onContainer]
  unfold Container.writeChunkListBlock
  rw [wp_bind, wp_get, wp_bind]
  cases encodeChunkListBlock s.container.env.padding entries next with
  | error e => exact h.drop
  | ok pt => exact container_uses h

/-- The blocks are written first to last, each under its own generation. -/
theorem writeListBlocks_uses {id : FileId} {entries : List ChunkRef} (idx : Nat)
    (blocks : List ChunkRef) (h : Reserved (blocks.map ChunkRef.generation ++ R) s) :
    wp (writeListBlocks id entries idx blocks) (fun _ s' => Reserved R s')
      (fun _ s' => Reserved R s') s := by
  induction blocks generalizing idx s with
  | nil => exact h
  | cons block rest ih =>
      unfold writeListBlocks
      rw [wp_bind, wp_fromExcept]
      refine ⟨fun packed _ => ?_, fun _ _ => h.dropAll⟩
      rw [wp_bind]
      refine wp_mono (writeChunkListBlock_uses h) ?_ fun _ _ h' => h'.dropAll
      intro _ s₁ h₁
      exact ih _ h₁

theorem writeExternalChainFor_reserved (id : FileId) (entries : List ChunkRef) :
    Keeps (Reserved R) (writeExternalChainFor id entries) := by
  intro s h
  unfold writeExternalChainFor
  simp only
  rw [wp_bind]
  refine wp_mono (allocBlockRefs_takes _ [] h) ?_ fun _ _ h' => h'
  intro refs s₁ h₁
  rw [wp_bind]
  refine wp_mono (writeListBlocks_uses 0 refs h₁) ?_ fun _ _ h' => h'
  intro _ s₂ h₂
  have hrest : Keeps (Reserved R) (do
      let head ← fromExcept (index refs 0)
      pure (head, entries.length, refs) : VfsM (ChunkRef × Nat × List ChunkRef)) :=
    Keeps.bind Keeps.fromExcept fun _ => Keeps.pure
  exact hrest s₂ h₂

/-! ## Flush -/

theorem onContainer_reserved {m : ContainerM α} (hm : ∀ c, wp m (fun _ c' => c'.seals = c.seals)
    (fun _ c' => c'.seals = c.seals) c) : Keeps (Reserved R) (onContainer m) := by
  intro s h
  rw [wp_onContainer]
  exact wp_mono (hm s.container) (fun _ _ hs => h.mono hs (le_refl _)) fun _ _ hs =>
    h.mono hs (le_refl _)

theorem syncAll_seals {c : Container} : wp Container.syncAll (fun _ c' => c'.seals = c.seals)
    (fun _ c' => c'.seals = c.seals) c :=
  wp_mono Container.syncAll_committed (fun _ _ h => h.seals) fun _ _ h => h.2.seals

theorem publishMetadata_reserved {blob : Metadata} :
    Keeps (Reserved R) (publishMetadata blob) := by
  refine Keeps.bind (onContainer_reserved fun _ => syncAll_seals) fun _ => ?_
  refine Keeps.bind (Keeps.modify fun _ h => h.mono rfl (le_refl _)) fun _ => ?_
  refine Keeps.bind (onContainer_reserved fun c => ?_) fun _ => ?_
  · exact wp_mono Container.writeMetadata_committed (fun _ _ h => h.1.seals) fun _ _ h => h.2.seals
  refine Keeps.bind (Keeps.modify fun _ h => h.mono rfl (le_refl _)) fun _ => ?_
  refine Keeps.bind (Keeps.modify fun _ h => h.mono rfl (le_refl _)) fun _ => ?_
  refine Keeps.bind (onContainer_reserved fun _ => rfl) fun _ => ?_
  refine Keeps.bind Keeps.get fun _ => Keeps.bind Keeps.fromExcept fun _ => ?_
  refine Keeps.bind (onContainer_reserved fun c => ?_) fun _ => ?_
  · exact wp_mono Container.writeAnchor_committed (fun _ _ h => h.seals) fun _ _ h => h.2.seals
  · exact Keeps.modify fun _ h => h.mono rfl (le_refl _)

theorem upgradeHeader_reserved (h : Reserved R s) : Reserved R (upgradeHeader s) := by
  unfold upgradeHeader
  split
  · exact h.mono rfl (le_refl _)
  · exact h

theorem upgradeToV4_reserved (h : Reserved R s) : Reserved R (upgradeToV4 s) := by
  unfold upgradeToV4
  split
  · exact h.mono rfl (le_refl _)
  · exact h

/-- A flush seals list blocks under generations it takes itself. -/
theorem flush_reserved : Keeps (Reserved R) flush := by
  refine Keeps.bind Keeps.get fun _ => Keeps.ite (Keeps.ite Keeps.throw Keeps.pure) ?_
  refine Keeps.ite Keeps.pure ?_
  refine Keeps.bind (Keeps.modify fun _ h => h.mono rfl (le_refl _)) fun _ => ?_
  refine Keeps.bind Keeps.get fun _ => Keeps.bind Keeps.fromExcept fun _ => ?_
  refine Keeps.bind (allocChunkGen_keeps Reserved.unmoved) fun _ => ?_
  refine Keeps.bind (Keeps.modify fun _ h => upgradeHeader_reserved h) fun _ => ?_
  refine Keeps.bind (Keeps.modify fun _ h => upgradeToV4_reserved h) fun _ => ?_
  have henc : Keeps (Reserved R) encodeMetadata :=
    encodeMetadata_keeps Reserved.unmoved writeExternalChainFor_reserved
  exact Keeps.bind henc fun _ => publishMetadata_reserved

/-! ## The programs that write file chunks -/

/-- The generation is taken before the slot is chosen; a flush may come between
that and the seal. -/
theorem rewriteTarget_takes {cur : ChunkRef} (h : Reserved R s) :
    wp (rewriteTarget cur) (fun r s' => Reserved (r.1.generation :: R) s')
      (fun _ s' => Reserved R s') s := by
  unfold rewriteTarget
  rw [wp_bind]
  refine wp_mono (allocChunkGen_takes h) ?_ fun _ _ h' => h'
  intro g s₁ h₁
  rw [wp_bind, wp_get, wp_ite]
  refine ⟨fun _ => h₁, fun _ => ?_⟩
  rw [wp_bind, wp_attempt]
  have hslot : Keeps (Reserved (g :: R)) (allocSlot pendingFreeRecycleMin) :=
    allocSlot_keeps Reserved.unmoved flush_reserved
  refine wp_mono (hslot s₁ h₁) (fun id s₂ h₂ => h₂) fun e s₂ h₂ => ?_
  cases e with
  | panic => exact h₂.drop
  | err e =>
      cases e with
      | vaultSizeLimit n => exact h₂
      | _ => exact h₂.drop

theorem rewriteChunk_reserved {id : FileId} {idx : Nat} {cur : ChunkRef} {pt : Chunk} :
    Keeps (Reserved R) (rewriteChunk id idx cur pt) := by
  intro s h
  unfold rewriteChunk
  rw [wp_bind]
  refine wp_mono (rewriteTarget_takes h) ?_ fun _ _ h' => h'
  rintro ⟨newRef, retired⟩ s₁ h₁
  have hback : ∀ e, Keeps (Reserved R) (do
      if retired.isSome then pushPending [newRef.id]
      throw e : VfsM (ChunkRef × Option ChunkId)) := by
    intro e
    refine Keeps.ite ?_ Keeps.throw
    exact Keeps.bind (pushPending_keeps Reserved.unmoved) fun _ => Keeps.throw
  simp only
  rw [wp_bind, wp_attempt]
  exact wp_mono (writeChunk_uses h₁) (fun _ _ h₂ => h₂) fun e s₂ h₂ => hback e s₂ h₂

theorem extendWithZeros_reserved {id : FileId} {growFrom : Nat} (missing : Nat)
    (appended : List ChunkRef) :
    Keeps (Reserved R) (extendWithZeros id growFrom missing appended) := by
  induction missing generalizing appended with
  | zero => exact Keeps.pure
  | succ missing ih =>
      refine Keeps.bind (Keeps.attempt (allocSlot_keeps Reserved.unmoved flush_reserved)) fun r => ?_
      split
      · exact Keeps.bind (pushPending_keeps Reserved.unmoved) fun _ => Keeps.throw
      · next slot =>
          intro s h
          rw [wp_bind]
          refine wp_mono (allocChunkGen_takes h) ?_ fun _ _ h' => h'
          intro g s₁ h₁
          rw [wp_bind, wp_fromExcept]
          refine ⟨fun idx _ => ?_, fun _ _ => h₁.drop⟩
          have hback : ∀ e, Keeps (Reserved R) (do
              pushPending [slot]
              pushPending (appended.map ChunkRef.id)
              throw e : VfsM (List ChunkRef)) := by
            intro e
            refine Keeps.bind (pushPending_keeps Reserved.unmoved) fun _ => ?_
            exact Keeps.bind (pushPending_keeps Reserved.unmoved) fun _ => Keeps.throw
          rw [wp_bind, wp_attempt]
          exact wp_mono (writeChunk_uses h₁) (fun _ s₂ h₂ => ih _ s₂ h₂) fun e s₂ h₂ =>
            hback e s₂ h₂

theorem writes_reserved : Writes (Reserved R) where
  flush := flush_reserved
  place := fun _ _ _ _ => rewriteInPlace_reserved
  rewrite := fun _ _ _ _ => rewriteChunk_reserved
  zeros := fun _ _ _ _ => extendWithZeros_reserved _ _

theorem truncateDataFile_reserved {len : Nat} :
    Keeps (Reserved R) (onContainer (Container.truncateDataFile len)) := by
  refine onContainer_reserved fun c => ?_
  unfold Container.truncateDataFile
  rw [wp_bind, wp_get]
  split
  · exact rfl
  rw [wp_bind]
  refine Container.nextFault_spec fun fault io => ?_
  cases fault with
  | ok => exact wp_bind.mpr syncAll_seals
  | before => exact rfl
  | torn left written => exact rfl
  | after => exact rfl

/-! ## Sessions -/

end Vfs

/-- The metadata that an open reads has a counter above every generation sealed
so far. -/
def Container.ahead (c : Container) : Bool :=
  (c.live.orElse fun _ => c.mirror).elim true fun m =>
    c.sealedGens.all fun g => decide (g < m.generation)

namespace Vfs

variable {R : List Nat} {s : Vfs}

theorem open_reserved {c : Container} (h : Vfs.open c = .ok s) (hnodup : c.sealedGens.Nodup)
    (hahead : c.ahead = true) : Reserved [] s := by
  obtain ⟨hopening, m, hread, hgen⟩ := open_generation h
  have hseals : s.container.sealedGens = c.sealedGens := by
    unfold Container.sealedGens
    rw [hopening]
  have hfound : (c.live.orElse fun _ => c.mirror) = some m := by
    rcases hread with hm | ⟨hl, hm⟩
    · rw [hm]
      rfl
    · rw [hl]
      exact hm
  unfold Container.ahead at hahead
  rw [hfound] at hahead
  refine ⟨?_, fun g hg => ?_⟩
  · rw [List.nil_append, hseals]
    exact hnodup
  · rw [List.nil_append, hseals] at hg
    rw [hgen]
    exact of_decide_eq_true (List.all_eq_true.mp hahead g hg)

/-- A close and an open: what the flush leaves on the disk decides. -/
def reopensAhead (s : Vfs) : Bool :=
  match flush s with
  | .ok _ s' => Container.ahead { s'.container with metadataRecovered := false }
  | .error _ _ => true

theorem reopen_reserved (h : Reserved [] s) (hahead : s.reopensAhead = true) :
    wp reopen (fun _ s' => Reserved [] s') (fun _ s' => Reserved [] s') s := by
  unfold reopen
  rw [wp_bind]
  have hflush := flush_reserved s h
  unfold reopensAhead at hahead
  unfold wp at hflush ⊢
  cases hrun : flush s with
  | error e s₁ =>
      rw [hrun] at hflush
      exact hflush
  | ok u s₁ =>
      rw [hrun] at hflush hahead
      have h₁ : Reserved [] s₁ := hflush
      show wp _ _ _ s₁
      rw [wp_bind, wp_get, wp_bind, wp_fromExcept]
      refine ⟨fun s₂ hopen => ?_, fun _ _ => h₁⟩
      exact open_reserved hopen h₁.once hahead

theorem step_reserved {call : Call} (h : Reserved [] s)
    (hahead : call.op = .reopen → (s.withEnv call.env).reopensAhead = true) :
    Reserved [] (s.step call) := by
  have henv : Reserved [] (s.withEnv call.env) := h.mono rfl (le_refl _)
  by_cases hop : call.op = .reopen
  · refine step_of_wp ?_
    rw [hop]
    unfold exec
    rw [wp_map]
    exact reopen_reserved henv (hahead hop)
  · have hk : Keeps (Reserved []) (exec call.op) :=
      exec_keeps Reserved.unmoved writes_reserved (fun _ => truncateDataFile_reserved) call.op
        fun h => absurd h hop
    exact step_of_wp (hk _ henv)

end Vfs

namespace Vault

variable {v v' : Vault}

def Act.rotates : Act → Bool
  | .rotateMvk .. => true
  | .rotateMvkDeniable .. => true
  | _ => false

/-- The condition on a step: an open finds metadata ahead of every seal. -/
def numbered (v : Vault) : Act → Bool
  | .vfs ⟨.reopen, env⟩ => (v.vfs.withEnv env).reopensAhead
  | .crash env live slot => (v.recovered env live slot).ahead
  | _ => true

/-- Every step of the run meets the condition in the state it starts from. -/
def runsNumbered (v : Vault) : List Act → Bool
  | [] => true
  | a :: rest => v.numbered a && (v.act a).elim true fun v' => v'.runsNumbered rest

theorem persistHeader_reserved {nonce : Nat} {anchor : Fault} :
    Keeps (fun v => Reserved [] v.vfs) (persistHeader nonce anchor) := by
  refine Keeps.bind Keeps.get fun _ => Keeps.bind ?_ fun _ => Keeps.ite ?_ Keeps.pure
  · exact onHead_keeps fun _ _ h => h.mono rfl (le_refl _)
  · refine Keeps.get_bind fun v h => ?_
    split
    · exact h
    split
    · exact h
    · unfold onContainer onVfs Vfs.onContainer
      rw [wp_zoom, wp_zoom, wp_bind, wp_modify]
      refine wp_mono Container.writeAnchor_committed ?_ ?_
      · exact fun _ _ hc => h.mono hc.seals (le_refl _)
      · exact fun _ _ hc => h.mono hc.2.seals (le_refl _)

theorem afterCrash_reserved {env : Env} {live : Nat} {slot : ChunkId → Nat}
    (h : Reserved [] v.vfs) (hahead : (v.recovered env live slot).ahead = true)
    (hcrash : v.afterCrash env live slot = some v') : Reserved [] v'.vfs := by
  unfold afterCrash at hcrash
  split at hcrash
  · cases hcrash
  · simp only at hcrash
    split at hcrash
    · cases hcrash
    · next vfs hopen =>
        injection hcrash with hcrash
        rw [← hcrash]
        exact Vfs.open_reserved hopen h.once hahead

theorem act_reserved {a : Act} (h : Reserved [] v.vfs) (hrot : a.rotates = false)
    (hnum : v.numbered a = true) (hact : v.act a = some v') : Reserved [] v'.vfs := by
  cases a with
  | vfs call =>
      injection hact with hact
      rw [← hact]
      refine Vfs.step_reserved h fun hop => ?_
      obtain ⟨op, env⟩ := call
      have hop : op = .reopen := hop
      rw [hop] at hnum
      exact hnum
  | persistHeader nonce io anchor =>
      injection hact with hact
      rw [← hact]
      exact left_of_wp (persistHeader_reserved (v.withHeaderIo io) h)
  | upgradeHeaderToV3 io =>
      injection hact with hact
      rw [← hact]
      have hhead : Keeps (fun v => Reserved [] v.vfs) (onHead Head.upgradeHeaderToV3) :=
        onHead_keeps fun _ _ h => h.mono rfl (le_refl _)
      exact left_of_wp (hhead (v.withHeaderIo io) h)
  | rotateMvk => cases hrot
  | rotateMvkDeniable => cases hrot
  | crash env live slot => exact afterCrash_reserved h hnum hact

theorem run_reserved {acts : List Act} (h : Reserved [] v.vfs)
    (hrot : ∀ a ∈ acts, a.rotates = false) (hnum : v.runsNumbered acts = true)
    (hrun : v.run acts = some v') : Reserved [] v'.vfs := by
  induction acts generalizing v with
  | nil =>
      injection hrun with hrun
      exact hrun ▸ h
  | cons a rest ih =>
      unfold run at hrun
      unfold runsNumbered at hnum
      rw [Bool.and_eq_true] at hnum
      cases hact : v.act a with
      | none =>
          rw [hact] at hrun
          cases hrun
      | some v₁ =>
          rw [hact] at hrun hnum
          refine ih (act_reserved h (hrot a List.mem_cons_self) hnum.1 hact) ?_ hnum.2 hrun
          exact fun b hb => hrot b (List.mem_cons_of_mem _ hb)

end Vault

/-- A slot that holds an older seal does not open under the AAD of a newer one. -/
theorem replayed_slot_fails {x y : Seal} (h : x.aad ≠ y.aad) {id : ChunkId} {c : Container}
    (hslot : c.slots id = Slot.sealed x.key x.aad x.pt) :
    ∃ e c', Container.readChunk y.key y.aad.fileId y.aad.chunkIdx ⟨id, y.aad.generation⟩ c =
      .error e c' := by
  have hfails : wp (Container.readChunk y.key y.aad.fileId y.aad.chunkIdx
      ⟨id, y.aad.generation⟩) (fun _ _ => False) (fun _ _ => True) c := by
    refine Container.readChunk_spec (fun io pt hpt => ?_) (fun _ _ => trivial) fun _ _ _ => trivial
    rw [hslot] at hpt
    unfold Slot.sealed at hpt
    rw [if_neg (fun heq => h heq.2.symm)] at hpt
    cases hpt
  unfold wp at hfails
  cases hrun : Container.readChunk y.key y.aad.fileId y.aad.chunkIdx ⟨id, y.aad.generation⟩ c with
  | ok pt c' =>
      rw [hrun] at hfails
      exact hfails.elim
  | error e c' => exact ⟨e, c', rfl⟩

/-- Over every history under one MVK whose opens all find metadata ahead of what
was sealed, no AAD is used twice, and an old slot put back over a newer seal of
the same place is not readable. -/
theorem chunk_aads_used_once {header : Header} {deniable : Bool} {format : MetadataFormat}
    {head : Head} {anchored : Bool} {acts : List Vault.Act} {v : Vault}
    (hrun : (Vault.created header deniable format head anchored).run acts = some v)
    (hrot : ∀ a ∈ acts, a.rotates = false)
    (hnum : (Vault.created header deniable format head anchored).runsNumbered acts = true) :
    v.vfs.container.seals.Pairwise (fun y x => x.aad ≠ y.aad) ∧
      ∀ y x, [y, x].Sublist v.vfs.container.seals → ∀ id c,
        c.slots id = Slot.sealed x.key x.aad x.pt →
        ∃ e c', Container.readChunk y.key y.aad.fileId y.aad.chunkIdx ⟨id, y.aad.generation⟩ c =
          .error e c' := by
  have hstart : Reserved [] (Vault.created header deniable format head anchored).vfs :=
    ⟨List.nodup_nil, nofun⟩
  have hres := Vault.run_reserved hstart hrot hnum hrun
  have hpair : v.vfs.container.seals.Pairwise (fun y x => x.aad ≠ y.aad) := by
    refine (List.pairwise_map.mp hres.once).imp ?_
    intro y x hne heq
    exact hne (congrArg Aad.generation heq.symm)
  refine ⟨hpair, fun y x hsub id c hslot => ?_⟩
  have htwo := hpair.sublist hsub
  rw [List.pairwise_cons] at htwo
  exact replayed_slot_fails (htwo.1 x (List.mem_singleton.mpr rfl)) hslot

/-! ## A session that dies before its flush -/

/-- A LUKSBOX2 vault with one passphrase. -/
def oneFileVault : Vault :=
  Vault.created ⟨2, false, false, 16384, 32768⟩ false .v5
    (Head.created 5 7 false (Function.update (fun _ => none) 0 (some ⟨1, false, 20, 5⟩))) false

/-- A file is written in two sessions, the first of which ends in a crash; with
`flushed` it had been flushed. -/
def rewrittenActs (flushed : Bool) : List Vault.Act :=
  [ .vfs ⟨.create 1 "f" 0o644, Env.quiet⟩, .vfs ⟨.flush, Env.quiet⟩,
    .vfs ⟨.write 2 0 [1], Env.quiet⟩ ] ++
  (if flushed then [.vfs ⟨.flush, Env.quiet⟩] else []) ++
  [ .crash Env.quiet 0 (fun _ => 0), .vfs ⟨.write 2 0 [2], Env.quiet⟩ ]

/-- Without the flush the second session seals other contents under an AAD of the
first one. -/
theorem unflushed_write_reuses_aad :
    ∃ v, oneFileVault.run (rewrittenActs false) = some v ∧
      ¬ v.vfs.container.seals.Pairwise (fun y x => x.aad = y.aad → x.pt = y.pt) := by
  have hrun : (oneFileVault.run (rewrittenActs false)).map (fun v =>
      v.vfs.container.seals.map fun x => (x.aad, x.pt 0)) =
      some [(⟨2, 0, 3⟩, 2), (⟨2, 0, 2⟩, 0), (⟨2, 0, 3⟩, 1), (⟨2, 0, 2⟩, 0)] := by decide +kernel
  obtain ⟨v, hv, hseals⟩ := Option.map_eq_some_iff.mp hrun
  refine ⟨v, hv, fun hpair => ?_⟩
  have hpair : (v.vfs.container.seals.map fun x => (x.aad, x.pt 0)).Pairwise
      (fun y x => x.1 = y.1 → x.2 = y.2) := by
    refine List.pairwise_map.mpr (hpair.imp ?_)
    intro y x himp heq
    exact congrFun (himp heq) 0
  rw [hseals] at hpair
  exact absurd hpair (by decide)

/-- With it every AAD is new. -/
theorem flushed_write_takes_new_aad :
    ∃ v, oneFileVault.run (rewrittenActs true) = some v ∧ v.vfs.container.seals.length = 3 ∧
      v.vfs.container.seals.Pairwise (fun y x => x.aad ≠ y.aad) := by
  have hrun : (oneFileVault.run (rewrittenActs true)).map (fun v =>
      v.vfs.container.seals.length) = some 3 := by decide +kernel
  obtain ⟨v, hv, hlen⟩ := Option.map_eq_some_iff.mp hrun
  exact ⟨v, hv, hlen, (chunk_aads_used_once hv (by decide) (by decide +kernel)).1⟩

end Luksbox
