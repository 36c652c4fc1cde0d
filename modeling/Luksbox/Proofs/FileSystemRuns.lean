import Luksbox.Proofs.CommitRuns
import Luksbox.Proofs.FileSystem

/-!
# Runs on a file system

A shrink is no step of a file system: it flushes, lowers the counter of the next
slot and cuts the file behind the last slot in use, and every chunk of every file
lies before the cut. With that, and with one call done (`Proofs/FileSystem.lean`),
a run of calls is a run of `FileSystem.Step`.
-/

namespace Luksbox

open Lib Lib.ByteFile Relation FileSystem

namespace Vfs

variable {s s' : Vfs}

/-! ## Cutting the file -/

/-- What a cut leaves alone, also one that fails: all slots before it. -/
structure KeptBelow (len : Nat) (c c' : Container) : Prop where
  header : c'.header = c.header
  key : c'.fileKey = c.fileKey
  slots : ∀ x, c.header.dataOffset + (x + 1) * chunkSlotSize ≤ len → c'.slots x = c.slots x

theorem truncateDataFile_kept {len : Nat} {c : Container} :
    wp (Container.truncateDataFile len) (fun _ c' => KeptBelow len c c')
      (fun _ c' => KeptBelow len c c') c := by
  unfold Container.truncateDataFile
  rw [wp_bind, wp_get]
  split
  · exact ⟨rfl, rfl, fun _ _ => rfl⟩
  rw [wp_bind]
  refine Container.nextFault_spec fun fault io => ?_
  have hsame : KeptBelow len c (c.withIo io) := ⟨rfl, rfl, fun _ _ => rfl⟩
  have hbelow : ∀ x, c.header.dataOffset + (x + 1) * chunkSlotSize ≤ len →
      (c.cutTo len).slots x = c.slots x := fun x hx => if_neg (Nat.not_lt.mpr hx)
  cases fault with
  | ok =>
      refine wp_bind.mpr ?_
      exact Container.syncAll_spec (fun _ => ⟨rfl, rfl, hbelow⟩) (fun _ => ⟨rfl, rfl, hbelow⟩)
        fun _ => ⟨rfl, rfl, hbelow⟩
  | before => exact hsame
  | torn left written => exact hsame
  | after => exact ⟨rfl, rfl, hbelow⟩

namespace Readable

/-- Every chunk of every file is before a cut at the next slot. -/
theorem container_kept (h : s.Readable) {c : Container}
    (hc : KeptBelow (s.dataOffset + s.tree.nextChunkId * chunkSlotSize) s.container c) :
    Readable { s with container := c } ∧ fileSystem { s with container := c } = s.fileSystem := by
  have hslot : ∀ {f : FileId} {i : Inode}, s.tree.inodes.get? f = some i → ∀ x ∈ i.dataIds,
      c.slots x = s.container.slots x := by
    intro f i hi x hx
    refine hc.slots x ?_
    have hmem : x ∈ s.slotIds := by
      unfold slotIds
      simp only [List.mem_append, List.mem_flatMap]
      exact .inl (.inl (.inl ⟨i, OrdMap.mem_values_of_get? hi, hx⟩))
    exact Nat.add_le_add_left (Nat.mul_le_mul_right _ (owned_below h.owned x hmem)) _
  have hhide : hideSize { s with container := c } = s.hideSize :=
    (congrArg Header.hideSizeHeader hc.header :)
  have hsize : ∀ g, sizeOf { s with container := c } g = s.sizeOf g := fun g =>
    sizeOf_congr rfl hhide (congrFun hc.key g) fun i hi x hx => hslot hi x hx
  refine ⟨⟨container_owned h.owned, fun g i idx r hi hr => ?_, fun g n hn => ?_⟩, ?_⟩
  · have hopens : opens { s with container := c } g idx r = s.opens g idx r := by
      have hx : r.id ∈ i.dataIds := List.mem_map_of_mem (List.mem_of_getElem? hr)
      unfold opens
      rw [hslot hi _ hx, hc.key]
    exact fun hnone => h.intact g i idx r hi hr (hopens.symm.trans hnone)
  · rw [hsize g] at hn
    rw [hhide]
    exact h.range g n hn
  · have hfiles : contents { s with container := c } = s.contents := by
      funext g
      cases hi : s.tree.inodes.get? g with
      | none => rw [contents_none hi, contents_none (s := { s with container := c }) hi]
      | some i =>
          exact contents_congr hi hi rfl rfl (hsize g) hhide (congrFun hc.key g)
            fun x hx => hslot hi x hx
    unfold fileSystem
    rw [hfiles]

/-- Neither the counter nor the free list is part of a file. -/
theorem lowered (h : s.Readable) {keep : ChunkId} (ho : Owned (lowerNextChunkId keep s)) :
    (lowerNextChunkId keep s).Readable ∧ (lowerNextChunkId keep s).fileSystem = s.fileSystem :=
  ⟨⟨ho, h.intact, h.range⟩, rfl⟩

/-- The state is still readable and stands for the same file system. -/
def Still (s s' : Vfs) : Prop := s'.Readable ∧ s'.fileSystem = s.fileSystem

theorem Still.trans {s'' : Vfs} (h : Still s s') (h' : Still s' s'') : Still s s'' :=
  ⟨h'.1, h'.2.trans h.2⟩

theorem flush_still (h : s.Readable) :
    wp flush (fun _ s' => Still s s') (fun _ s' => Still s s') s := by
  have hruns := @flush_runs Plan.whole.permit 0 ⟨[], [], s⟩ fun _ => Or.inl rfl
  exact wp_of_runs hruns (fun _ c hp _ => h.still ⟨0, c, hp, rfl⟩) fun _ c hp _ =>
    h.still ⟨0, c, hp, rfl⟩

theorem shrinkTail_still (h : s.Readable) (hc : s.commits ∨ s.PendingBelow) :
    wp shrinkTail (fun _ s' => Still s s') (fun _ s' => Still s s') s := by
  have hcutTail : ∀ s₂, Still s s₂ → wp (do
        let s ← get
        let newLen ← fromExcept (slotOffset s.dataOffset s.tree.nextChunkId)
        let oldLen ← onContainer Container.dataFileLen
        if oldLen ≤ newLen then pure 0
        else do
          onContainer (Container.truncateDataFile newLen)
          pure (oldLen - newLen) : VfsM Nat)
      (fun _ s' => Still s s') (fun _ s' => Still s s') s₂ := by
    intro s₂ h₂
    have hio : ∀ io, Still s { s₂ with container := s₂.container.withIo io } := fun io =>
      h₂.trans (h₂.1.container_kept ⟨rfl, rfl, fun _ _ => rfl⟩)
    rw [wp_bind, wp_get, wp_bind, wp_fromExcept]
    refine ⟨fun newLen hlen => ?_, fun _ _ => h₂⟩
    obtain ⟨rfl, -⟩ := Container.slotOffset_eq_ok hlen
    rw [wp_bind, wp_onContainer]
    unfold Container.dataFileLen
    rw [wp_bind]
    refine Container.ioCall_spec (fun io => ?_) hio
    rw [wp_bind, wp_get]
    show wp (if _ then _ else _) _ _ _
    split
    · exact hio io
    · rw [wp_bind, wp_onContainer]
      have hkept : ∀ c, KeptBelow (s₂.dataOffset + s₂.tree.nextChunkId * chunkSlotSize)
          (s₂.container.withIo io) c → Still s { s₂ with container := c } := fun c hkept =>
        h₂.trans (h₂.1.container_kept ⟨hkept.header, hkept.key, hkept.slots⟩)
      exact wp_mono truncateDataFile_kept (fun _ c hk => hkept c hk) fun _ c hk => hkept c hk
  refine shrinkTail_rule (I := fun s₁ => Still s s₁ ∧ s₁.PendingBelow) (J := fun s₂ => Still s s₂)
    ?_ (fun _ _ h₁ => h₁.1) ?_ (fun _ h₁ => h₁.1) hcutTail
  · refine wp_mono (wp_and h.flush_still (flush_owned h.owned)) ?_ fun _ _ he => he.1
    rintro _ s₁ ⟨h₁, -, -, hmode⟩
    exact ⟨h₁, flushed_below hc hmode⟩
  · rintro keep s₁ ⟨h₁, hbelow⟩ hkeep
    have hlow := h₁.1.lowered
      (lowered_owned h₁.1.owned (firstUnusedTailSlot_above hkeep) (hbelow keep hkeep))
    have hstill : Still s (lowerNextChunkId keep s₁) := h₁.trans hlow
    exact wp_mono hlow.1.flush_still (fun _ _ h₂ => hstill.trans h₂) fun _ _ h₂ => hstill.trans h₂

theorem shrink_still (h : s.Readable) (hc : s.commits ∨ s.PendingBelow) :
    wp shrink (fun _ s' => Still s s') (fun _ s' => Still s s') s := by
  unfold shrink
  rw [wp_bind, wp_ensureWritable]
  refine ⟨fun _ => ⟨h, rfl⟩, fun _ => ?_⟩
  rw [wp_bind, wp_get]
  split
  · exact ⟨h, rfl⟩
  · exact h.shrinkTail_still hc

theorem finish_still (h : s.Readable) (hc : s.commits ∨ s.PendingBelow) :
    wp finish (fun _ s' => Still s s') (fun _ s' => Still s s') s := by
  refine finish_rule (I := fun s₁ => Still s s₁ ∧ s₁.PendingBelow) ?_ ?_ ?_ ?_
  · refine wp_mono (wp_and h.flush_still (flush_owned h.owned)) ?_ fun _ _ he => he.1
    rintro _ s₁ ⟨h₁, -, -, hmode⟩
    exact ⟨h₁, flushed_below hc hmode⟩
  · exact fun _ _ h₁ => h₁.1.trans ⟨h₁.1.1.withEnv, rfl⟩
  · exact fun _ _ _ h₁ => h₁.1.trans ⟨h₁.1.1.withEnv, rfl⟩
  · intro env s₁ h₁
    have hshrink := shrink_still (@withEnv s₁ h₁.1.1 env) (.inr h₁.2)
    exact wp_mono hshrink (fun _ _ h₂ => h₁.1.trans h₂) fun _ _ h₂ => h₁.1.trans h₂

theorem exec_shrink_still (h : s.Readable) {op : Op} (hop : op.shrinks = true)
    (hc : s.commits ∨ s.PendingBelow) :
    wp (exec op) (fun r s' => Still s s' ∧ s.fileSystem.Step op r s'.fileSystem)
      (fun _ s' => Still s s') s := by
  cases op with
  | shrink =>
      unfold exec
      rw [wp_map]
      exact wp_mono (h.shrink_still hc) (fun _ _ h' => ⟨h', h'.2⟩) fun _ _ h' => h'
  | shrinkAllowDeniable =>
      unfold exec shrinkAllowDeniable
      rw [wp_map, wp_bind, wp_ensureWritable]
      refine ⟨fun _ => ⟨h, rfl⟩, fun _ => ?_⟩
      exact wp_mono (h.shrinkTail_still hc) (fun _ _ h' => ⟨h', h'.2⟩) fun _ _ h' => h'
  | finish =>
      unfold exec
      rw [wp_map]
      exact wp_mono (h.finish_still hc) (fun _ _ h' => ⟨h', h'.2⟩) fun _ _ h' => h'
  | _ => cases hop

end Readable

end Vfs

namespace Vfs

variable {s s' : Vfs}

/-! ## Runs -/

/-- What a call returns. -/
def outcome (s : Vfs) (c : Call) : Except Failure Reply :=
  match s.call c with
  | .ok r _ => .ok r
  | .error e _ => .error e

/-- What the calls of a run return. -/
def outcomes (s : Vfs) : List Call → List (Op × Except Failure Reply)
  | [] => []
  | c :: rest => (c.op, s.outcome c) :: outcomes (s.step c) rest

/-- No call of the run fails half way through its own chunks. -/
def FailsWhole (s : Vfs) : List Call → Prop
  | [] => True
  | c :: rest => (∀ e s', s.call c = .error e s' → c.op.Spares (s.withEnv c.env)) ∧
      FailsWhole (s.step c) rest

/-- What one call leads to. -/
theorem Readable.exec_spec (h : s.Readable) {op : Op}
    (hop : op.isLocal = true ∨ op.shrinks = true) (hc : s.CutsSafely op)
    (hwhole : ∀ e s', exec op s = .error e s' → op.Spares s) :
    wp (exec op) (fun r s' => s'.Readable ∧ s.fileSystem.Step op r s'.fileSystem)
      (fun _ s' => s'.Readable ∧ s'.fileSystem = s.fileSystem) s := by
  rcases hop with hlocal | hcut
  · exact wp_intro (fun _ _ hok => h.step_ok hlocal hok) fun e s' herr =>
      h.step_error hlocal (hwhole e s' herr) herr
  · exact wp_mono (h.exec_shrink_still hcut (hc hcut)) (fun _ _ h' => ⟨h'.1.1, h'.2⟩)
      fun _ _ h' => h'

theorem Readable.run (h : s.Readable) {calls : List Call}
    (hops : ∀ c ∈ calls, c.op.isLocal = true ∨ c.op.shrinks = true) (hc : s.RunsSafely calls)
    (hwhole : s.FailsWhole calls) :
    (s.run calls).Readable ∧ s.fileSystem.Admits (s.outcomes calls) (s.run calls).fileSystem := by
  induction calls generalizing s with
  | nil => exact ⟨h, .nil⟩
  | cons c calls ih =>
      obtain ⟨hop, hops⟩ := List.forall_mem_cons.mp hops
      have hspec := (@withEnv s h c.env).exec_spec hop hc.1 hwhole.1
      have hstep : s.step c = left (s.call c) := rfl
      have hout : s.outcomes (c :: calls) = (c.op, s.outcome c) :: (s.step c).outcomes calls := rfl
      rw [run_cons, hout]
      obtain ⟨-, hc⟩ := hc
      obtain ⟨-, hwhole⟩ := hwhole
      unfold outcome
      cases hcall : s.call c with
      | ok r s' =>
          obtain ⟨hread, hfs⟩ := wp_ok hspec hcall
          have hs' : s.step c = s' := by rw [hstep, hcall]; rfl
          rw [hs'] at hc hwhole ⊢
          obtain ⟨hend, hadmits⟩ := ih hread hops hc hwhole
          exact ⟨hend, .returned hfs hadmits⟩
      | error e s' =>
          obtain ⟨hread, hfs⟩ := wp_error hspec hcall
          have hfs : s'.fileSystem = s.fileSystem := hfs
          have hs' : s.step c = s' := by rw [hstep, hcall]; rfl
          rw [hs'] at hc hwhole ⊢
          obtain ⟨hend, hadmits⟩ := ih hread hops hc hwhole
          rw [hfs] at hadmits
          exact ⟨hend, .failed hadmits⟩

theorem failsWhole_of_allOk {calls : List Call} (h : s.AllOk calls) : s.FailsWhole calls := by
  induction calls generalizing s with
  | nil => trivial
  | cons c calls ih =>
      obtain ⟨⟨r, s', hok⟩, hrest⟩ := h
      refine ⟨fun e s'' herr => ?_, ih hrest⟩
      rw [hok] at herr
      cases herr

theorem failsWhole_append {calls calls' : List Call} (h : s.FailsWhole calls)
    (h' : (s.run calls).FailsWhole calls') : s.FailsWhole (calls ++ calls') := by
  induction calls generalizing s with
  | nil => exact h'
  | cons c calls ih => exact ⟨h.1, ih h.2 h'⟩

/-- A vault that was just created. -/
theorem readable_new (ht : s.tree = DirectoryTree.new) (hp : s.pendingFree = []) : s.Readable := by
  refine ⟨(show Starts s from Or.inl ht).owned hp, intact_new ht, fun f n hn => ?_⟩
  obtain ⟨i, hi, hsize⟩ := Option.bind_eq_some_iff.mp hn
  rw [ht] at hi
  rw [DirectoryTree.eq_newRoot hi] at hsize
  injection hsize with hsize
  exact hsize ▸ small_in_range (Nat.zero_le _)

end Vfs

/-- Over any run of calls a vault is a file system: what the calls return and
the files they leave are those of `FileSystem.Step`, for every way of storing
sizes and of padding. A shrink changes no file, and neither does a call that
fails, unless it was rewriting chunks in their own slots. -/
theorem vault_is_file_system {s : Vfs} (h : s.Readable) {calls : List Call}
    (hops : ∀ c ∈ calls, c.op.isLocal = true ∨ c.op.shrinks = true) (hc : s.RunsSafely calls)
    (hwhole : s.FailsWhole calls) :
    s.fileSystem.Admits (s.outcomes calls) (s.run calls).fileSystem :=
  (h.run hops hc hwhole).2

/-- A file with a hole, read back, renamed and flushed. -/
def holeCalls : List Call :=
  [ (Op.create 1 "f" 0o644).quiet, (Op.write 2 5000 [1, 2]).quiet, (Op.read 2 4990 1000).quiet,
    (Op.rename 1 "f" 1 "g").quiet, Op.flush.quiet ]

/-- Then a write across both of its chunks that fails at the second one. -/
theorem torn_write_spares : tornWrite.op.Spares ((roomyVfs.run holeCalls).withEnv tornWrite.env) :=
  spares_of_flushed (show _ = some [⟨0, 1⟩, ⟨1, 3⟩] by decide +kernel) (by decide +kernel)
    (by decide +kernel) (by decide +kernel)

theorem holes_are_read :
    roomyVfs.fileSystem.Admits
      (roomyVfs.outcomes (holeCalls ++ [tornWrite, (Op.read 2 0 6000).quiet]))
      (roomyVfs.run (holeCalls ++ [tornWrite, (Op.read 2 0 6000).quiet])).fileSystem := by
  have hreturn : roomyVfs.allReturn holeCalls = true := by decide +kernel
  have hwhole : roomyVfs.FailsWhole (holeCalls ++ [tornWrite, (Op.read 2 0 6000).quiet]) :=
    Vfs.failsWhole_append (Vfs.failsWhole_of_allOk (Vfs.allOk_of_allReturn hreturn))
      ⟨fun _ _ _ => torn_write_spares, fun _ _ _ => trivial, trivial⟩
  have hruns : roomyVfs.RunsSafely (holeCalls ++ [tornWrite, (Op.read 2 0 6000).quiet]) :=
    Vfs.runsSafely_of_local (by decide)
  exact vault_is_file_system (Vfs.readable_new rfl rfl) (by decide) hruns hwhole

end Luksbox
