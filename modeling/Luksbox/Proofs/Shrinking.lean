import Luksbox.Proofs.Generations
import Luksbox.Proofs.Ownership

/-!
# Shrinking

A shrink lowers `next_chunk_id` to one past the last slot in use, commits that,
and cuts the file there. Slots that were freed and not released yet must not be
at or above the new end: they are part of the free list that is committed. The
first flush of the shrink sees to that when it writes; a flush of a clean tree
does not write, and a failed call can leave a clean tree with freed slots.

What is committed on the way is judged against the ledger. Every small step
that commits does so in a state whose ledger holds, so the metadata lists each
slot once and none at or above its own `next_chunk_id`.
-/

namespace Luksbox

open Lib Relation

def Metadata.nextChunkId : Metadata → ChunkId
  | .empty => DirectoryTree.new.nextChunkId
  | .lbm2 tree => tree.nextChunkId
  | .lbm3 tree => tree.nextChunkId
  | .lbm4 tree => tree.nextChunkId
  | .lbm5 tree => tree.nextChunkId
  | .lbm6 tree _ => tree.nextChunkId
  | .unknown _ => 0

def Metadata.freeChunks : Metadata → List ChunkId
  | .empty => DirectoryTree.new.freeChunks
  | .lbm2 tree => tree.freeChunks
  | .lbm3 tree => tree.freeChunks
  | .lbm4 tree => tree.freeChunks
  | .lbm5 tree => tree.freeChunks
  | .lbm6 tree _ => tree.freeChunks
  | .unknown _ => []

/-- What the validator asks of the slots of a committed tree: no data chunk, list
block or free slot twice, and all of them below `next_chunk_id`. -/
structure Commit.Sound (k : Commit) : Prop where
  once : (k.tree.inodes.refIds ++ k.blob.freeChunks).Nodup
  bound : ∀ x ∈ k.tree.inodes.refIds ++ k.blob.freeChunks, x < k.blob.nextChunkId

/-! ## Commits of a state whose ledger holds -/

namespace Vfs

variable {s s' : Vfs}

theorem blobOf_freeChunks : s.blobOf.freeChunks = s.tree.freeChunks ++ s.pendingFree := by
  unfold blobOf
  split
  · split <;> rfl
  · rfl
  · rfl
  · rfl

theorem blobOf_nextChunkId : s.blobOf.nextChunkId = s.tree.nextChunkId := by
  unfold blobOf
  split
  · split <;> rfl
  · rfl
  · rfl
  · rfl

end Vfs

theorem Ledger.sound {c : Cfg} (h : Ledger c) {k : Commit} (ht : k.tree = c.vfs.tree)
    (hb : k.blob = c.vfs.blobOf) : k.Sound := by
  have hcount : ∀ x, (k.tree.inodes.refIds ++ k.blob.freeChunks).count x ≤ c.held x := by
    intro x
    rw [ht, hb, Vfs.blobOf_freeChunks, List.count_append, List.count_append]
    have htally : c.vfs.tree.inodes.tally Inode.refIds x = c.vfs.tree.inodes.refIds.count x := rfl
    unfold Cfg.held
    omega
  refine ⟨List.nodup_iff_count_le_one.mpr fun x => (hcount x).trans (h.once x), fun x hx => ?_⟩
  rw [hb, Vfs.blobOf_nextChunkId]
  exact h.bound x ((List.count_pos_iff.mpr hx).trans_le (hcount x))

namespace Vfs

variable {s s' : Vfs} {α : Type}

/-- Every commit since `s` is sound. -/
def NewSound (s s' : Vfs) : Prop :=
  ∀ k ∈ s'.container.history, k ∈ s.container.history ∨ k.Sound

theorem NewSound.trans {s'' : Vfs} (h : NewSound s s') (h' : NewSound s' s'') : NewSound s s'' := by
  intro k hk
  rcases h' k hk with hk | hk
  · exact h k hk
  · exact .inr hk

/-- The history with the one commit that is being made. -/
def Made (s : Vfs) (blob : Metadata) (s' : Vfs) : Prop :=
  ∃ k, k.tree = s.tree ∧ k.blob = blob ∧ k.slots = s.container.slots ∧
    s'.container.history = k :: s.container.history

theorem onContainer_made {blob : Metadata} {m : ContainerM α}
    (hm : ∀ c, wp m (fun _ c' => c'.history = c.history) (fun _ c' => c'.history = c.history) c) :
    Keeps (Made s blob) (onContainer m) := by
  rintro s₁ ⟨k, ht, hb, hslots, hh⟩
  rw [wp_onContainer]
  exact wp_mono (hm s₁.container) (fun _ _ hc => ⟨k, ht, hb, hslots, hc.trans hh⟩)
    fun _ _ hc => ⟨k, ht, hb, hslots, hc.trans hh⟩

theorem writeAnchor_history {g : Nat} {c : Container} :
    wp (Container.writeAnchor g) (fun _ c' => c'.history = c.history)
      (fun _ c' => c'.history = c.history) c := by
  unfold Container.writeAnchor
  rw [wp_bind, wp_get]
  split
  · exact rfl
  · rw [wp_bind]
    exact Container.ioCall_spec (fun _ => rfl) fun _ => rfl

theorem publish_made {blob : Metadata} :
    wp (publishMetadata blob) (fun _ s' => Made s blob s')
      (fun _ s' => Made s blob s' ∨ s'.container.history = s.container.history) s := by
  unfold publishMetadata
  rw [wp_bind, wp_onContainer]
  -- what follows the fence
  have hrest : ∀ c, c.history = s.container.history → c.slots = s.container.slots → wp (do
      modify (beginCommit blob)
      onContainer (Container.writeMetadata blob)
      modify endCommit
      modify releasePending
      onContainer Container.clearMetadataRecoveredFlag
      let s ← get
      let _ ← fromExcept (capacityPercent blob.len
        (payloadBudgetFor s.container.header.metadataSize))
      onContainer (Container.writeAnchor s.tree.nextChunkGen)
      modify fun s => { s with dirty := false, chunksDirty := ∅ } : VfsM Unit)
      (fun _ s' => Made s blob s') (fun _ s' => Made s blob s') { s with container := c } := by
    intro c hc hslots
    rw [wp_bind, wp_modify]
    refine (?_ : Keeps (Made s blob) _) _ ⟨_, rfl, rfl, hslots, congrArg (List.cons _) hc⟩
    refine Keeps.bind (onContainer_made fun c => ?_) fun _ => ?_
    · exact wp_mono Container.writeMetadata_landing (fun _ _ h => h.1.rest.record.history)
        fun _ _ h => h.rest.record.history
    refine Keeps.bind (Keeps.modify ?_) fun _ => ?_
    · rintro s₁ ⟨k, ht, hb, hslots, hh⟩
      refine ⟨{ k with done := true }, ht, hb, hslots, ?_⟩
      unfold endCommit
      simp only [hh]
    refine Keeps.bind (Keeps.modify fun _ h => h) fun _ => ?_
    refine Keeps.bind (onContainer_made fun _ => rfl) fun _ => ?_
    refine Keeps.bind Keeps.get fun _ => Keeps.bind Keeps.fromExcept fun _ => ?_
    refine Keeps.bind (onContainer_made fun _ => writeAnchor_history) fun _ => ?_
    exact Keeps.modify fun _ h => h
  refine Container.syncAll_spec (fun io => ?_) (fun _ => .inr rfl) fun _ => .inr rfl
  exact wp_mono (hrest (s.container.withIo io).synced rfl rfl) (fun _ _ h => h) fun _ _ h => Or.inl h

end Vfs

theorem Leads.made {s s' : Vfs} (h : Leads (Vfs.publishMetadata s.blobOf) s s') :
    Vfs.Made s s.blobOf s' ∨ s'.container.history = s.container.history := by
  have hspec : wp (Vfs.publishMetadata s.blobOf) (fun _ s' => Vfs.Made s s.blobOf s')
      (fun _ s' => Vfs.Made s s.blobOf s' ∨ s'.container.history = s.container.history) s :=
    Vfs.publish_made
  rcases h with ⟨a, h⟩ | ⟨e, h⟩
  · have hm := Vfs.of_wp_ok hspec h
    exact .inl hm
  · have hm := Vfs.of_wp_error hspec h
    exact hm

theorem Leads.newSound {s s' : Vfs} {L B : List ChunkId} (hl : Ledger ⟨L, B, s⟩)
    (h : Leads (Vfs.publishMetadata s.blobOf) s s') : Vfs.NewSound s s' := by
  intro k hk
  rcases h.made with ⟨k₀, ht, hb, -, hh⟩ | hh
  · rw [hh] at hk
    rcases List.mem_cons.mp hk with hk | hk
    · rw [hk]
      exact .inr (hl.sound ht hb)
    · exact .inl hk
  · rw [hh] at hk
    exact .inl hk

theorem Micro.newSound {P : Permit} {f : FileId} {c c' : Cfg} (h : Micro P f c c')
    (hl : Ledger c) : Vfs.NewSound c.vfs c'.vfs := by
  cases h with
  | publish hb hp => exact hp.newSound hl
  | upgradeHeader =>
      unfold Vfs.upgradeHeader
      split
      · exact fun _ hk => .inl hk
      · exact fun _ hk => .inl hk
  | upgradeToV4 =>
      unfold Vfs.upgradeToV4
      split
      · exact fun _ hk => .inl hk
      · exact fun _ hk => .inl hk
  | _ => exact fun _ hk => .inl hk

theorem Path.newSound {P : Permit} {f : FileId} {c c' : Cfg} (h : Path P f c c')
    (hl : Ledger c) : Vfs.NewSound c.vfs c'.vfs := by
  induction h with
  | refl => exact fun _ hk => .inl hk
  | tail hp hs ih => exact ih.trans (hs.newSound (hl.path hp))

/-! ## The two flushes and the cut -/

namespace Vfs

variable {s s' : Vfs}

/-- A flush keeps the ledger and commits sound metadata. -/
theorem flush_owned (h : Owned s) :
    wp flush (fun _ s' => Owned s' ∧ NewSound s s' ∧
        ((¬ s.commits ∧ s' = s) ∨ (s.commits ∧ s'.pendingFree = [])))
      (fun _ s' => Owned s') s := by
  have hruns := @flush_runs Permit.any 0 ⟨[], [], s⟩ fun _ => Or.inl rfl
  refine wp_of_runs hruns (fun _ c' hp hf => ?_) fun _ c' hp _ => h.along ⟨0, c', hp, rfl⟩
  exact ⟨h.along ⟨0, c', hp, rfl⟩, Path.newSound hp h.ledger, hf.2.2⟩

theorem maxEnd_above {refs : List ChunkRef} {n : Nat} (h : maxEnd refs = .ok n) :
    ∀ r ∈ refs, r.id < n := by
  induction refs generalizing n with
  | nil => nofun
  | cons r rest ih =>
      unfold maxEnd at h
      obtain ⟨stop, hstop, h⟩ := except_bind_eq_ok.mp h
      obtain ⟨more, hmore, h⟩ := except_bind_eq_ok.mp h
      injection h with h
      have hstop := (addU_eq_ok hstop).1
      intro r' hr'
      rw [← h]
      rcases List.mem_cons.mp hr' with hr' | hr'
      · rw [hr']
        refine Nat.lt_of_lt_of_le ?_ (Nat.le_max_left _ _)
        rw [hstop]
        exact Nat.lt_succ_self _
      · exact (ih hmore r' hr').trans_le (Nat.le_max_right _ _)

theorem firstUnusedTailSlot_above {t : DirectoryTree} {n : Nat}
    (h : firstUnusedTailSlot t = .ok n) : ∀ x ∈ t.inodes.refIds, x < n := by
  intro x hx
  rw [← allRefs_ids] at hx
  obtain ⟨r, hr, rfl⟩ := List.mem_map.mp hx
  exact maxEnd_above h r hr

/-- The freed slots that are waiting lie below the end that a shrink would
choose. -/
def PendingBelow (s : Vfs) : Prop :=
  ∀ keep, firstUnusedTailSlot s.tree = .ok keep → ∀ x ∈ s.pendingFree, x < keep

theorem lowered_owned (h : Owned s) {keep : ChunkId}
    (hrefs : ∀ x ∈ s.tree.inodes.refIds, x < keep) (hpend : ∀ x ∈ s.pendingFree, x < keep) :
    Owned (lowerNextChunkId keep s) := by
  have hle : ∀ x, (Cfg.mk [] [] (lowerNextChunkId keep s)).held x ≤ (Cfg.mk [] [] s).held x := by
    intro x
    have hsub := (List.filter_sublist (l := s.tree.freeChunks)
      (p := fun slot => decide (slot < keep))).count_le x
    unfold Cfg.held lowerNextChunkId
    simp only
    omega
  refine ⟨⟨h.tree.ns, h.tree.fresh⟩, fun x => (hle x).trans (h.ledger.once x), fun x hx => ?_⟩
  show x < keep
  by_contra hge
  have hfree : (s.tree.freeChunks.filter fun slot => decide (slot < keep)).count x = 0 := by
    refine List.count_eq_zero.mpr fun hmem => hge ?_
    exact of_decide_eq_true (List.mem_filter.mp hmem).2
  have htally : s.tree.inodes.tally Inode.refIds x = 0 :=
    List.count_eq_zero.mpr fun hmem => hge (hrefs x hmem)
  have hwait : s.pendingFree.count x = 0 := List.count_eq_zero.mpr fun hmem => hge (hpend x hmem)
  unfold Cfg.held lowerNextChunkId at hx
  simp only [List.count_nil] at hx
  omega

/-- What a shrink that returned leaves: sound commits, and every slot in use
inside the file if it was cut. -/
structure Openable (s : Vfs) (n : Nat) (s' : Vfs) : Prop where
  commits : NewSound s s'
  slots : ∀ x ∈ s'.slotIds, x < s'.tree.nextChunkId
  covered : n = 0 ∨ ∀ x ∈ s'.tree.inodes.refIds,
    s'.dataOffset + (x + 1) * chunkSlotSize ≤ s'.container.fileLen

theorem owned_below (h : Owned s) : ∀ x ∈ s.slotIds, x < s.tree.nextChunkId := by
  intro x hx
  refine h.ledger.bound x ?_
  rw [← count_slotIds]
  exact List.count_pos_iff.mpr hx

/-- What the cut leaves: the slots before it are as they were. -/
structure Cut (len : Nat) (c c' : Container) : Prop where
  header : c'.header = c.header
  history : c'.history = c.history
  fileLen : c'.fileLen = len
  key : c'.fileKey = c.fileKey
  slots : ∀ x, c.header.dataOffset + (x + 1) * chunkSlotSize ≤ len → c'.slots x = c.slots x

theorem cut_spec {len : Nat} {c : Container} :
    wp (Container.truncateDataFile len) (fun _ c' => Cut len c c') (fun _ _ => True) c := by
  unfold Container.truncateDataFile
  rw [wp_bind, wp_get]
  split
  · exact trivial
  rw [wp_bind]
  refine Container.nextFault_spec fun fault io => ?_
  cases fault with
  | ok =>
      refine wp_bind.mpr ?_
      refine Container.syncAll_spec (fun _ => ⟨rfl, rfl, rfl, rfl, fun x hx => ?_⟩)
        (fun _ => trivial) fun _ => trivial
      exact if_neg (Nat.not_lt.mpr hx)
  | before => exact trivial
  | torn left written => exact trivial
  | after => exact trivial

theorem container_owned (h : Owned s) {c : Container} : Owned { s with container := c } :=
  ⟨h.tree, h.ledger.of_le (fun _ => le_refl _) (le_refl _)⟩

/-! The parts of a shrink, each with what its caller has to show of what lies
between them. -/

/-- From the second flush on. -/
theorem cutTail_rule {Q : Nat → Vfs → Prop} {E : Failure → Vfs → Prop}
    (hE : ∀ e c, E e { s with container := c })
    (hsame : ∀ io, Q 0 { s with container := s.container.withIo io })
    (hcut : ∀ n io c, Cut (s.dataOffset + s.tree.nextChunkId * chunkSlotSize)
      (s.container.withIo io) c → Q n { s with container := c }) :
    wp (do
        let s ← get
        let newLen ← fromExcept (slotOffset s.dataOffset s.tree.nextChunkId)
        let oldLen ← onContainer Container.dataFileLen
        if oldLen ≤ newLen then pure 0
        else do
          onContainer (Container.truncateDataFile newLen)
          pure (oldLen - newLen) : VfsM Nat) Q E s := by
  rw [wp_bind, wp_get, wp_bind, wp_fromExcept]
  refine ⟨fun newLen hlen => ?_, fun e _ => hE e s.container⟩
  have hlen := (Container.slotOffset_eq_ok hlen).1
  rw [wp_bind, wp_onContainer]
  unfold Container.dataFileLen
  rw [wp_bind]
  refine Container.ioCall_spec (fun io => ?_) fun io => hE _ (s.container.withIo io)
  rw [wp_bind, wp_get]
  show wp (if _ then _ else _) _ _ _
  split
  · exact hsame io
  · rw [wp_bind, wp_onContainer]
    refine wp_mono cut_spec (fun _ c hcut' => ?_) fun e c _ => hE e c
    rw [hlen] at hcut'
    exact hcut _ io c hcut'

/-- `I` holds after the first flush, and `J` from there to the cut. -/
theorem shrinkTail_rule {Q : Nat → Vfs → Prop} {E : Failure → Vfs → Prop} {I J : Vfs → Prop}
    (hflush : wp flush (fun _ s₁ => I s₁) E s) (hE : ∀ e s₁, I s₁ → E e s₁)
    (hlower : ∀ keep s₁, I s₁ → firstUnusedTailSlot s₁.tree = .ok keep →
      wp flush (fun _ s₂ => J s₂) E (lowerNextChunkId keep s₁))
    (hsame : ∀ s₁, I s₁ → J s₁)
    (hcut : ∀ s₂, J s₂ → wp (do
        let s ← get
        let newLen ← fromExcept (slotOffset s.dataOffset s.tree.nextChunkId)
        let oldLen ← onContainer Container.dataFileLen
        if oldLen ≤ newLen then pure 0
        else do
          onContainer (Container.truncateDataFile newLen)
          pure (oldLen - newLen) : VfsM Nat) Q E s₂) : wp shrinkTail Q E s := by
  unfold shrinkTail
  rw [wp_bind]
  refine wp_mono hflush (fun _ s₁ h₁ => ?_) fun _ _ h' => h'
  rw [wp_bind, wp_get, wp_bind, wp_fromExcept]
  refine ⟨fun keep hkeep => ?_, fun e _ => hE e s₁ h₁⟩
  split
  · rw [wp_bind, wp_modify, wp_bind]
    exact wp_mono (hlower keep s₁ h₁ hkeep) (fun _ s₂ h₂ => hcut s₂ h₂) fun _ _ h' => h'
  · exact hcut s₁ (hsame s₁ h₁)

theorem cutTail_spec (h : Owned s') (hs : NewSound s s') :
    wp (do
        let s ← get
        let newLen ← fromExcept (slotOffset s.dataOffset s.tree.nextChunkId)
        let oldLen ← onContainer Container.dataFileLen
        if oldLen ≤ newLen then pure 0
        else do
          onContainer (Container.truncateDataFile newLen)
          pure (oldLen - newLen) : VfsM Nat)
      (fun n s'' => Owned s'' ∧ Openable s n s'') (fun _ s'' => Owned s'') s' := by
  refine cutTail_rule (fun _ _ => container_owned h) (fun _ => ?_) fun n io c hcut => ?_
  · exact ⟨container_owned h, hs, owned_below (container_owned h), .inl rfl⟩
  · refine ⟨container_owned h, fun k hk => hs k ?_, owned_below (container_owned h), .inr fun x hx => ?_⟩
    · have hk : k ∈ c.history := hk
      rw [hcut.history] at hk
      exact hk
    · show c.header.dataOffset + _ ≤ c.fileLen
      rw [hcut.fileLen, hcut.header]
      have hlt : x < s'.tree.nextChunkId := by
        refine owned_below h x ?_
        rw [← List.count_pos_iff, count_slotIds]
        have hpos : 0 < s'.tree.inodes.refIds.count x := List.count_pos_iff.mpr hx
        have htally : s'.tree.inodes.tally Inode.refIds x = s'.tree.inodes.refIds.count x := rfl
        unfold Cfg.held
        simp only
        omega
      exact Nat.add_le_add_left (Nat.mul_le_mul_right _ hlt) _

theorem flushed_below (hc : s.commits ∨ s.PendingBelow)
    (hmode : (¬ s.commits ∧ s' = s) ∨ (s.commits ∧ s'.pendingFree = [])) : s'.PendingBelow := by
  rcases hmode with ⟨hno, heq⟩ | ⟨-, hpend⟩
  · rw [heq]
    exact hc.resolve_left hno
  · intro keep _ x hx
    rw [hpend] at hx
    cases hx

theorem shrinkTail_spec (h : Owned s) (hc : s.commits ∨ s.PendingBelow) :
    wp shrinkTail (fun n s' => Owned s' ∧ Openable s n s') (fun _ s' => Owned s') s := by
  refine shrinkTail_rule (I := fun s₁ => Owned s₁ ∧ NewSound s s₁ ∧ s₁.PendingBelow)
    (J := fun s₂ => Owned s₂ ∧ NewSound s s₂) ?_ ?_ ?_ ?_ ?_
  · refine wp_mono (flush_owned h) ?_ fun _ _ h' => h'
    rintro _ s₁ ⟨h₁, hs₁, hmode⟩
    exact ⟨h₁, hs₁, flushed_below hc hmode⟩
  · exact fun _ _ h₁ => h₁.1
  · intro keep s₁ h₁ hkeep
    have hlow : Owned (lowerNextChunkId keep s₁) :=
      lowered_owned h₁.1 (firstUnusedTailSlot_above hkeep) (h₁.2.2 keep hkeep)
    refine wp_mono (flush_owned hlow) ?_ fun _ _ h' => h'
    rintro _ s₂ ⟨h₂, hs₂, -⟩
    exact ⟨h₂, h₁.2.1.trans hs₂⟩
  · exact fun _ h₁ => ⟨h₁.1, h₁.2.1⟩
  · exact fun _ h₂ => cutTail_spec h₂.1 h₂.2

theorem shrink_spec (h : Owned s) (hc : s.commits ∨ s.PendingBelow) :
    wp shrink (fun n s' => Owned s' ∧ Openable s n s') (fun _ s' => Owned s') s := by
  unfold shrink
  rw [wp_bind, wp_ensureWritable]
  refine ⟨fun _ => h, fun _ => ?_⟩
  rw [wp_bind, wp_get]
  split
  · exact h
  · exact shrinkTail_spec h hc

theorem shrinkAllowDeniable_spec (h : Owned s) (hc : s.commits ∨ s.PendingBelow) :
    wp shrinkAllowDeniable (fun n s' => Owned s' ∧ Openable s n s') (fun _ s' => Owned s') s := by
  unfold shrinkAllowDeniable
  rw [wp_bind, wp_ensureWritable]
  exact ⟨fun _ => h, fun _ => shrinkTail_spec h hc⟩

/-- The question whether to give space back changes nothing but the fault
schedule. -/
theorem giveBack_spec :
    wp giveBack (fun _ s' => ∃ env, s' = s.withEnv env) (fun _ s' => ∃ env, s' = s.withEnv env)
      s := by
  unfold giveBack
  rw [wp_bind, wp_get]
  split
  · exact ⟨_, rfl⟩
  · exact ⟨_, rfl⟩
  · rw [wp_bind]
    exact wp_mono spaceReport_spec (fun _ _ he => he) fun _ _ he => he.2

/-- `I` holds after the first flush; then it is done, or a shrink follows. -/
theorem finish_rule {Q : Nat → Vfs → Prop} {E : Failure → Vfs → Prop} {I : Vfs → Prop}
    (hflush : wp flush (fun _ s₁ => I s₁) E s)
    (hdone : ∀ env s₁, I s₁ → Q 0 (s₁.withEnv env))
    (hE : ∀ e env s₁, I s₁ → E e (s₁.withEnv env))
    (hshrink : ∀ env s₁, I s₁ → wp shrink Q E (s₁.withEnv env)) : wp finish Q E s := by
  unfold finish
  rw [wp_bind]
  refine wp_mono hflush (fun _ s₁ h₁ => ?_) fun _ _ h' => h'
  rw [wp_bind, wp_get]
  split
  · exact hdone s₁.container.env s₁ h₁
  · rw [wp_bind]
    refine wp_mono giveBack_spec ?_ ?_
    · rintro answer s₂ ⟨env, rfl⟩
      split
      · exact hshrink env s₁ h₁
      · exact hdone env s₁ h₁
    · rintro e s₂ ⟨env, rfl⟩
      exact hE e env s₁ h₁

theorem finish_spec (h : Owned s) (hc : s.commits ∨ s.PendingBelow) :
    wp finish (fun n s' => Owned s' ∧ Openable s n s') (fun _ s' => Owned s') s := by
  refine finish_rule (I := fun s₁ => Owned s₁ ∧ NewSound s s₁ ∧ s₁.PendingBelow) ?_ ?_ ?_ ?_
  · refine wp_mono (flush_owned h) ?_ fun _ _ h' => h'
    rintro _ s₁ ⟨h₁, hs₁, hmode⟩
    exact ⟨h₁, hs₁, flushed_below hc hmode⟩
  · intro env s₁ h₁
    exact ⟨h₁.1.withEnv, h₁.2.1, owned_below h₁.1.withEnv, .inl rfl⟩
  · exact fun _ _ _ h₁ => h₁.1.withEnv
  · intro env s₁ h₁
    have hshrink := shrink_spec (@Owned.withEnv s₁ h₁.1 env) (.inr h₁.2.2)
    refine wp_mono hshrink (fun n s₃ h₃ => ⟨h₃.1, ?_⟩) fun _ _ h₃ => h₃
    exact ⟨h₁.2.1.trans h₃.2.commits, h₃.2.slots, h₃.2.covered⟩

end Vfs

/-! ## Runs -/

/-- The calls that may cut the file. -/
def Op.shrinks : Op → Bool
  | .shrink | .shrinkAllowDeniable | .finish => true
  | _ => false

namespace Vfs

variable {s s' : Vfs}

/-- The condition on a call: one that may cut the file starts with something to
flush, or with no freed slot past the end it would choose. -/
def CutsSafely (s : Vfs) (op : Op) : Prop := op.shrinks = true → s.commits ∨ s.PendingBelow

/-- Every call of the run meets the condition in the state it starts from. -/
def RunsSafely (s : Vfs) : List Call → Prop
  | [] => True
  | c :: rest => s.CutsSafely c.op ∧ RunsSafely (s.step c) rest

theorem runsSafely_of_local {s : Vfs} {calls : List Call}
    (h : ∀ c ∈ calls, c.op.shrinks = false) : s.RunsSafely calls := by
  induction calls generalizing s with
  | nil => exact trivial
  | cons c rest ih =>
      obtain ⟨hc, hrest⟩ := List.forall_mem_cons.mp h
      refine ⟨fun hshrinks => ?_, ih hrest⟩
      rw [hc] at hshrinks
      cases hshrinks

theorem exec_shrink_spec {op : Op} (h : Owned s) (hop : op.shrinks = true)
    (hc : s.commits ∨ s.PendingBelow) :
    wp (exec op) (fun r s' => Owned s' ∧ ∃ n, r = .count n ∧ Openable s n s')
      (fun _ s' => Owned s') s := by
  cases op with
  | shrink =>
      unfold exec
      rw [wp_map]
      exact wp_mono (shrink_spec h hc) (fun n _ h' => ⟨h'.1, n, rfl, h'.2⟩) fun _ _ h' => h'
  | shrinkAllowDeniable =>
      unfold exec
      rw [wp_map]
      exact wp_mono (shrinkAllowDeniable_spec h hc) (fun n _ h' => ⟨h'.1, n, rfl, h'.2⟩)
        fun _ _ h' => h'
  | finish =>
      unfold exec
      rw [wp_map]
      exact wp_mono (finish_spec h hc) (fun n _ h' => ⟨h'.1, n, rfl, h'.2⟩) fun _ _ h' => h'
  | _ => cases hop

theorem step_owned (h : Owned s) {c : Call} (hop : c.op.isLocal = true ∨ c.op.shrinks = true)
    (hc : s.CutsSafely c.op) : Owned (s.step c) := by
  rcases hop with hlocal | hcut
  · exact h.step hlocal
  · have hspec := exec_shrink_spec (@Owned.withEnv s h c.env) hcut (hc hcut)
    exact step_of_wp (wp_mono hspec (fun _ _ h' => h'.1) fun _ _ h' => h')

theorem run_owned (h : Owned s) {calls : List Call}
    (hops : ∀ c ∈ calls, c.op.isLocal = true ∨ c.op.shrinks = true) (hc : s.RunsSafely calls) :
    Owned (s.run calls) := by
  induction calls generalizing s with
  | nil => exact h
  | cons c calls ih =>
      rw [run_cons]
      refine ih (step_owned h (hops c List.mem_cons_self) hc.1) ?_ hc.2
      exact fun c' hc' => hops c' (List.mem_cons_of_mem _ hc')

end Vfs

/-- After any run whose shrinks meet the condition, a shrink that meets it and
returns has committed only sound metadata and has left every slot in use inside
the file. -/
theorem shrink_leaves_openable {s : Vfs} (hs : Starts s) (hp : s.pendingFree = [])
    {calls : List Call} (hops : ∀ c ∈ calls, c.op.isLocal = true ∨ c.op.shrinks = true)
    (hc : s.RunsSafely calls) {c : Call} (hop : c.op.shrinks = true)
    (hcut : (s.run calls).commits ∨ (s.run calls).PendingBelow) {r : Reply} {s' : Vfs}
    (hok : (s.run calls).call c = .ok r s') :
    ∃ n, r = .count n ∧ Vfs.Openable ((s.run calls).withEnv c.env) n s' := by
  have howned : Owned ((s.run calls).withEnv c.env) :=
    (Vfs.run_owned (hs.owned hp) hops hc).withEnv
  have hspec := wp_ok (Vfs.exec_shrink_spec howned hop hcut) hok
  exact hspec.2

/-! ## A truncate that failed -/

/-- Room for two slots, an empty file, and a flush. -/
def limitedCalls : List Call :=
  [ (Op.setMaxVaultSize (32768 + 2 * 4124)).quiet, (Op.create 1 "f" 0o644).quiet, Op.flush.quiet ]

/-- Growing the file to three chunks fails at the limit and leaves a clean tree
with two freed slots. The shrink then returns, and what it committed lists these
slots as free from `next_chunk_id` on: the vault cannot be opened any more. -/
theorem shrink_after_failed_truncate :
    ∃ n s', (roomyVfs.run (limitedCalls ++ [(Op.truncate 2 12288).quiet])).call Op.shrink.quiet =
        .ok (.count n) s' ∧
      ¬ Vfs.Openable ((roomyVfs.run (limitedCalls ++ [(Op.truncate 2 12288).quiet])).withEnv
        Env.quiet) n s' ∧ (Vfs.open s'.container).isOk = false := by
  generalize hrun : (roomyVfs.run (limitedCalls ++ [(Op.truncate 2 12288).quiet])).call
    Op.shrink.quiet = result
  have heval : (match result with
      | .ok (.count _) s' =>
          some (s'.tree.freeChunks, s'.tree.nextChunkId, (Vfs.open s'.container).isOk)
      | _ => none) = some ([0, 1], 0, false) := by
    rw [← hrun]
    decide +kernel
  split at heval
  · next n s' =>
      injection heval with heval
      injection heval with hfree heval
      injection heval with hnext hopen
      refine ⟨n, s', rfl, fun hsafe => ?_, hopen⟩
      have hmem : 0 ∈ s'.slotIds := by
        unfold Vfs.slotIds
        rw [hfree]
        exact List.mem_append_left _ (List.mem_append_right _ List.mem_cons_self)
      have hlt := hsafe.slots 0 hmem
      rw [hnext] at hlt
      exact Nat.not_lt_zero _ hlt
  · cases heval

/-- With something to flush the same shrink is safe. -/
theorem shrink_of_dirty_tree :
    ∃ n s', (roomyVfs.run (limitedCalls ++ [(Op.truncate 2 12288).quiet,
        (Op.create 1 "g" 0o644).quiet])).call Op.shrink.quiet = .ok (.count n) s' ∧
      Vfs.Openable ((roomyVfs.run (limitedCalls ++ [(Op.truncate 2 12288).quiet,
        (Op.create 1 "g" 0o644).quiet])).withEnv Env.quiet) n s' := by
  obtain ⟨r, s', hrun⟩ := exists_of_returned
    (show returned ((roomyVfs.run (limitedCalls ++ [(Op.truncate 2 12288).quiet,
      (Op.create 1 "g" 0o644).quiet])).call Op.shrink.quiet) = true by decide +kernel)
  have hruns : roomyVfs.RunsSafely (limitedCalls ++ [(Op.truncate 2 12288).quiet,
      (Op.create 1 "g" 0o644).quiet]) := Vfs.runsSafely_of_local (by decide)
  have hsafe := shrink_leaves_openable (Or.inl rfl) rfl (by decide) hruns rfl
    (.inl ⟨by decide +kernel, .inl (by decide +kernel)⟩) hrun
  obtain ⟨n, rfl, hopen⟩ := hsafe
  exact ⟨n, s', hrun, hopen⟩

end Luksbox
