import Luksbox.Proofs.DataEdits
import Luksbox.Proofs.ReadPath

/-!
# What one call can do

Every call but those that cut the file and those that reopen the vault is one
of five things to the data path: an edit of the namespace, a path of small
steps, a `write` or a `truncate` that went through, or a change of settings. A
call that fails is a path, and nothing else. `Done` says for each operation
what it has done when it returns, `Moves` puts that into the five cases, and an
invariant over runs is checked against those.
-/

namespace Luksbox

open Lib Relation

/-- The calls that neither cut the file nor reopen the vault. -/
def Op.isLocal : Op → Bool
  | .shrink | .shrinkAllowDeniable | .finish | .reopen => false
  | _ => true

/-- What the two calls that rewrite chunks are granted. -/
def Op.Granted (p : Plan) (s : Vfs) : Op → Prop
  | .write f offset buf => Vfs.MayWrite p f s offset buf
  | .truncate f newSize => Vfs.MayTruncate p f s newSize
  | _ => True

/-- A state a path from `s` leads to. -/
def Along (P : Permit) (s s' : Vfs) : Prop := ∃ f c, Path P f ⟨[], [], s⟩ c ∧ c.vfs = s'

theorem Along.refl {P : Permit} {s : Vfs} : Along P s s := ⟨0, _, ReflTransGen.refl, rfl⟩

namespace Vfs

variable {s : Vfs} {p : Plan}

/-- A symlink has a target. -/
def HasTargets (s : Vfs) : Prop :=
  ∀ id i, s.tree.inodes.get? id = some i → i.kind = .symlink → i.symlinkTarget ≠ none

/-- The slots in use and their ids can be counted in a `u64`. -/
structure Countable (s : Vfs) : Prop where
  refs : s.tree.inodes.refIds.length ≤ u64Max
  free : s.tree.freeChunks.length + s.pendingFree.length ≤ u64Max
  next : ∀ x ∈ s.tree.inodes.refIds, x < u64Max

/-- What keeps an operation from panicking. -/
def Safe (s : Vfs) : Op → Prop
  | .write f _ _ => Bounded s f
  | .read f _ _ => SizeFits s f
  | .readlink _ => HasTargets s
  | .spaceReport => Countable s
  | _ => True

/-- What a call that returned has done. -/
def Done (p : Plan) (s : Vfs) (op : Op) (r : Reply) (s' : Vfs) : Prop :=
  match op with
  | .lookup .. | .readdir .. | .parentOf .. | .readlink .. => s' = s
  | .stat f => ∃ c st, Path p.permit f ⟨[], [], s⟩ c ∧ c.vfs = s' ∧ r = .stat st ∧
      HasStat ⟨[], [], s⟩ f st ∧ SizeKept ⟨[], [], s⟩ c
  | .read f offset bufLen => ∃ c d, Path p.permit f ⟨[], [], s⟩ c ∧ c.vfs = s' ∧
      r = .data d.1 d.2 ∧ HasRead ⟨[], [], s⟩ f offset bufLen d ∧ SizeKept ⟨[], [], s⟩ c
  | .write f offset buf => (buf = [] ∧ s' = s) ∨ ∃ c₀ oldReal i count c refs retired,
      Written p f s offset buf c₀ oldReal i count c refs retired s'
  | .truncate f newSize => ∃ c₀ oldReal i count c refs retired,
      Truncated p f s newSize c₀ oldReal i count c refs retired s'
  | .flush => ∃ c, Path p.permit 0 ⟨[], [], s⟩ c ∧ c.vfs = s' ∧ Flushed ⟨[], [], s⟩ c
  | .setMaxVaultSize bytes => s' = s ∨
      (s.toleratedInodes = [] ∧ s' = { s with maxVaultSize := bytes, dirty := true })
  | .setShrinkMode mode => s' = { s with shrinkMode := mode }
  | .spaceReport => ∃ env, s' = s.withEnv env
  | op => Edited s op s'

/-! ## Settings and reports -/

theorem setMaxVaultSize_spec {bytes : Nat} :
    wp (setMaxVaultSize bytes)
      (fun _ s' => s' = s ∨
        (s.toleratedInodes = [] ∧ s' = { s with maxVaultSize := bytes, dirty := true }))
      (Refused s) s := by
  unfold setMaxVaultSize
  rw [wp_bind, wp_ensureWritable]
  refine ⟨fun _ => refused_err, fun htol => ?_⟩
  rw [wp_bind, wp_get, wp_ite]
  refine ⟨fun _ => refused_err, fun _ => ?_⟩
  rw [wp_ite]
  refine ⟨fun _ => refused_err, fun _ => ?_⟩
  rw [wp_ite]
  exact ⟨fun _ => Or.inr ⟨htol, rfl⟩, fun _ => Or.inl rfl⟩

theorem sumU_ok {l : List Nat} (h : l.sum ≤ u64Max) : sumU l = .ok l.sum := by
  induction l with
  | nil => rfl
  | cons n rest ih =>
      rw [List.sum_cons] at h
      unfold sumU
      rw [ih (by omega)]
      show addU n rest.sum = _
      rw [addU_small h, List.sum_cons]

theorem mapM_addU {l : List Inode}
    (h : ∀ i ∈ l, i.chunks.length + i.externalListBlocks.length ≤ u64Max) :
    (l.mapM fun i => addU i.chunks.length i.externalListBlocks.length) =
      .ok (l.map fun i => i.refIds.length) := by
  induction l with
  | nil => rfl
  | cons i rest ih =>
      have hlen : i.refIds.length = i.chunks.length + i.externalListBlocks.length := by
        unfold Inode.refIds
        rw [List.length_append, List.length_map, List.length_map]
      rw [List.mapM_cons, addU_small (h i List.mem_cons_self),
        ih fun j hj => h j (List.mem_cons_of_mem _ hj), List.map_cons, hlen]
      rfl

theorem maxEnd_ok {l : List ChunkRef} (h : ∀ r ∈ l, r.id < u64Max) :
    ∃ n, maxEnd l = .ok n ∧ (∀ r ∈ l, r.id < n) ∧ ∀ m, (∀ r ∈ l, r.id < m) → n ≤ m := by
  induction l with
  | nil => exact ⟨0, rfl, nofun, fun m _ => Nat.zero_le m⟩
  | cons r rest ih =>
      obtain ⟨n, hn, hub, hleast⟩ := ih fun x hx => h x (List.mem_cons_of_mem _ hx)
      have hr : r.id < u64Max := h r List.mem_cons_self
      refine ⟨max (r.id + 1) n, ?_, ?_, ?_⟩
      · unfold maxEnd
        rw [addU_small hr, hn]
        rfl
      · intro x hx
        rcases List.mem_cons.mp hx with rfl | hx
        · exact lt_max_of_lt_left (Nat.lt_succ_self _)
        · exact lt_max_of_lt_right (hub x hx)
      · intro m hm
        exact max_le (hm r List.mem_cons_self) (hleast m fun x hx => hm x (List.mem_cons_of_mem _ hx))

/-- All refs, of chunks and of list blocks. -/
def allRefs (t : DirectoryTree) : List ChunkRef :=
  t.inodes.values.flatMap fun inode => inode.chunks ++ inode.externalListBlocks

theorem allRefs_ids {t : DirectoryTree} : (allRefs t).map ChunkRef.id = t.inodes.refIds := by
  unfold allRefs Inodes.refIds
  rw [List.map_flatMap]
  refine List.flatMap_congr fun i _ => ?_
  unfold Inode.refIds
  rw [List.map_append]

theorem firstUnusedTailSlot_ok {t : DirectoryTree} (h : ∀ x ∈ t.inodes.refIds, x < u64Max) :
    ∃ n, firstUnusedTailSlot t = .ok n ∧ (∀ x ∈ t.inodes.refIds, x < n) ∧
      ∀ m, (∀ x ∈ t.inodes.refIds, x < m) → n ≤ m := by
  have hids : ∀ {m : Nat}, (∀ x ∈ t.inodes.refIds, x < m) ↔ ∀ r ∈ allRefs t, r.id < m := by
    intro m
    rw [← allRefs_ids, List.forall_mem_map]
  obtain ⟨n, hn, hub, hleast⟩ := maxEnd_ok (hids.mp h)
  exact ⟨n, hn, hids.mpr hub, fun m hm => hleast m (hids.mp hm)⟩

/-- The slots in use can be added up. -/
theorem Countable.slots (h : Countable s) :
    (s.tree.inodes.values.mapM fun inode =>
      addU inode.chunks.length inode.externalListBlocks.length) =
        .ok (s.tree.inodes.values.map fun i => i.refIds.length) ∧
      (s.tree.inodes.values.map fun i => i.refIds.length).sum ≤ u64Max := by
  have hsum : (s.tree.inodes.values.map fun i => i.refIds.length).sum ≤ u64Max := by
    rw [← List.length_flatMap]
    exact h.refs
  refine ⟨mapM_addU fun i hi => ?_, hsum⟩
  have hle : i.refIds.length ≤ (s.tree.inodes.values.map fun i => i.refIds.length).sum :=
    List.le_sum_of_mem (List.mem_map_of_mem hi)
  unfold Inode.refIds at hle
  rw [List.length_append, List.length_map, List.length_map] at hle
  exact hle.trans hsum

theorem spaceReport_spec :
    wp spaceReport (fun _ s' => ∃ env, s' = s.withEnv env)
      (fun e s' => (Countable s → e ≠ .panic) ∧ ∃ env, s' = s.withEnv env) s := by
  unfold spaceReport
  rw [wp_bind, wp_onContainer]
  have hio : ∀ {Q : Nat → Container → Prop} {E : Failure → Container → Prop},
      (∀ io n, Q n (s.container.withIo io)) → (∀ io, E Container.ioError (s.container.withIo io)) →
      wp Container.dataFileLen Q E s.container := by
    intro Q E hQ hE
    unfold Container.dataFileLen
    rw [wp_bind]
    exact Container.ioCall_spec (fun io => by rw [wp_bind, wp_get]; exact hQ io _) hE
  refine hio ?_ ?_
  · intro io n
    have hsame : ∀ env, (∃ env', ({ s with container := { s.container with env := env } } : Vfs) =
        s.withEnv env') := fun env => ⟨env, rfl⟩
    have henv := hsame { s.container.env with io := io }
    rw [wp_bind, wp_get, wp_bind, wp_fromExcept]
    refine ⟨fun slots hslots => ?_, fun e he => ⟨fun hc => ?_, henv⟩⟩
    · rw [wp_bind, wp_fromExcept]
      refine ⟨fun used _ => ?_, fun e he => ⟨fun hc => ?_, henv⟩⟩
      · rw [wp_bind, wp_fromExcept]
        refine ⟨fun free _ => ?_, fun e he => ⟨fun hc => ?_, henv⟩⟩
        · rw [wp_bind, wp_fromExcept]
          refine ⟨fun tail _ => ?_, fun e he => ⟨fun hc => ?_, henv⟩⟩
          · rw [wp_bind, wp_fromExcept]
            refine ⟨fun keep _ => henv, fun e he => ⟨fun _ => ?_, henv⟩⟩
            rw [Container.slotOffset_plain he]
            exact nofun
          · obtain ⟨tail, htail, -⟩ := firstUnusedTailSlot_ok hc.next
            have he : firstUnusedTailSlot s.tree = .error e := he
            rw [htail] at he
            cases he
        · have he : addU s.tree.freeChunks.length s.pendingFree.length = .error e := he
          rw [addU_small hc.free] at he
          cases he
      · have hslots : (s.tree.inodes.values.mapM fun inode =>
            addU inode.chunks.length inode.externalListBlocks.length) = .ok slots := hslots
        rw [hc.slots.1] at hslots
        injection hslots with hslots
        rw [← hslots, sumU_ok hc.slots.2] at he
        cases he
    · have he : (s.tree.inodes.values.mapM fun inode =>
          addU inode.chunks.length inode.externalListBlocks.length) = .error e := he
      rw [hc.slots.1] at he
      cases he
  · intro io
    exact ⟨fun _ => nofun, { s.container.env with io := io }, rfl⟩

theorem readlink_spec {id : FileId} :
    wp (readlink id) (fun _ s' => s' = s)
      (fun e s' => (HasTargets s → e ≠ .panic) ∧ s' = s) s := by
  unfold readlink
  rw [wp_bind, wp_inodeOr]
  refine ⟨fun i hi => ?_, fun _ => ⟨fun _ => nofun, rfl⟩⟩
  rw [wp_ite]
  refine ⟨fun _ => ⟨fun _ => nofun, rfl⟩, fun hkind => ?_⟩
  rw [wp_orThrow]
  exact ⟨fun _ _ => rfl, fun hnone => ⟨fun ht => absurd hnone (ht id i hi (not_not.mp hkind)), rfl⟩⟩

theorem requireDir_reads {id : FileId} :
    wp (requireDir id) (fun _ s' => s' = s) (Refused s) s := by
  rw [wp_requireDir]
  exact ⟨fun _ _ => ⟨fun _ => refused_err, fun _ => rfl⟩, fun _ => refused_err⟩

/-! ## All of them -/

/-- A call that failed took a path, and panicked only where it was not safe. -/
def Gave (p : Plan) (s : Vfs) (op : Op) (e : Failure) (s' : Vfs) : Prop :=
  (Safe s op → e ≠ .panic) ∧ Along p.permit s s'

theorem Gave.of_refused {op : Op} {e : Failure} {s' : Vfs} (h : Refused s e s') :
    Gave p s op e s' := by
  obtain ⟨rfl, he⟩ := h
  exact ⟨fun _ => he, Along.refl⟩

theorem withEnv_along {P : Permit} {env : Env} : Along P s (s.withEnv env) :=
  ⟨0, _, ReflTransGen.single (Micro.env env), rfl⟩

theorem exec_spec (ht : TreeInv s.tree) (hl : Ledger ⟨[], [], s⟩) {op : Op}
    (hop : op.isLocal = true) (hg : op.Granted p s) :
    wp (exec op) (Done p s op) (Gave p s op) s := by
  have hedit : op.isEdit = true → wp (exec op) (fun _ s' => Edited s op s') (Gave p s op) s :=
    fun h => wp_mono (exec_edit_spec ht h) (fun _ _ hs => hs) fun _ _ he => Gave.of_refused he
  cases op with
  | lookup parent name =>
      unfold exec lookup
      rw [wp_map, wp_bind]
      refine wp_mono requireDir_reads ?_ fun _ _ he => Gave.of_refused he
      rintro dir s' rfl
      rw [wp_orThrow]
      exact ⟨fun _ _ => rfl, fun _ => Gave.of_refused refused_err⟩
  | readdir id =>
      unfold exec readdir
      rw [wp_map, wp_bind]
      refine wp_mono requireDir_reads ?_ fun _ _ he => Gave.of_refused he
      rintro dir s' rfl
      rw [wp_bind, wp_get]
      rfl
  | parentOf id =>
      unfold exec parentOf
      rw [wp_map, wp_bind, wp_inodeOr]
      exact ⟨fun _ _ => rfl, fun _ => Gave.of_refused refused_err⟩
  | readlink id =>
      unfold exec
      rw [wp_map]
      refine wp_mono readlink_spec (fun _ _ h => h) ?_
      rintro e s' ⟨he, rfl⟩
      exact ⟨he, Along.refl⟩
  | stat f =>
      have hruns := @stat_runs p.permit f ⟨[], [], s⟩
      unfold Runs runs at hruns
      unfold exec
      rw [wp_map]
      refine wp_mono hruns ?_ ?_
      · rintro st _ ⟨c, rfl, hp, hst, hkept⟩
        exact ⟨c, st, hp, rfl, rfl, hst, hkept⟩
      · rintro e _ ⟨c, rfl, hp, he⟩
        exact ⟨fun _ => he, f, c, hp, rfl⟩
  | read f offset bufLen =>
      have hruns := @read_runs p.permit f ⟨[], [], s⟩ offset bufLen
      unfold Runs runs at hruns
      unfold exec
      rw [wp_map]
      refine wp_mono hruns ?_ ?_
      · rintro d _ ⟨c, rfl, hp, hd, hkept⟩
        exact ⟨c, d, hp, rfl, rfl, hd, hkept⟩
      · rintro e _ ⟨c, rfl, hp, he⟩
        exact ⟨he, f, c, hp, rfl⟩
  | write f offset buf =>
      unfold exec
      rw [wp_map]
      refine wp_mono (write_spec hl hg) (fun _ _ h => h.2) ?_
      rintro e s' ⟨he, c, hp, hv⟩
      exact ⟨he, f, c, hp, hv⟩
  | truncate f newSize =>
      unfold exec
      rw [wp_map]
      refine wp_mono (truncate_spec hl hg) (fun _ _ h => h) ?_
      rintro e s' ⟨he, c, hp, hv⟩
      exact ⟨fun _ => he, f, c, hp, hv⟩
  | flush =>
      have hruns := @flush_runs p.permit 0 ⟨[], [], s⟩ fun _ => Or.inl rfl
      unfold Runs runs at hruns
      unfold exec
      rw [wp_map]
      refine wp_mono hruns ?_ ?_
      · rintro _ _ ⟨c, rfl, hp, hf⟩
        exact ⟨c, hp, rfl, hf⟩
      · rintro e _ ⟨c, rfl, hp, he⟩
        exact ⟨fun _ => he.1, 0, c, hp, rfl⟩
  | setMaxVaultSize bytes =>
      unfold exec
      rw [wp_map]
      exact wp_mono setMaxVaultSize_spec (fun _ _ h => h) fun _ _ he => Gave.of_refused he
  | setShrinkMode mode =>
      unfold exec setShrinkMode
      rw [wp_map, wp_modify]
      rfl
  | spaceReport =>
      unfold exec
      rw [wp_map]
      refine wp_mono spaceReport_spec (fun _ _ h => h) ?_
      rintro e s' ⟨he, env, rfl⟩
      exact ⟨he, withEnv_along⟩
  | mkdir parent name => exact hedit rfl
  | create parent name mode => exact hedit rfl
  | symlink parent name target => exact hedit rfl
  | link targetId newParent newName => exact hedit rfl
  | unlink parent name => exact hedit rfl
  | rmdir parent name => exact hedit rfl
  | rename oldParent oldName newParent newName => exact hedit rfl
  | chmod id mode => exact hedit rfl
  | setMtime id mtimeNs => exact hedit rfl
  | shrink => cases hop
  | shrinkAllowDeniable => cases hop
  | finish => cases hop
  | reopen => cases hop

end Vfs

/-! ## The five cases -/

/-- What a call did, as far as the data path is concerned. -/
inductive Moves (p : Plan) (s s' : Vfs) : Prop where
  | edit (h : DataEdit s s') (tree : TreeInv s'.tree)
  | along (h : Along p.permit s s')
  | write {f : FileId} {offset : Nat} {buf : List UInt8} {c₀ : Cfg} {oldReal : Nat} {i : Inode}
      {count : Nat} {c : Cfg} {refs : List ChunkRef} {retired : List ChunkId}
      (h : Vfs.Written p f s offset buf c₀ oldReal i count c refs retired s')
  | truncate {f : FileId} {newSize : Nat} {c₀ : Cfg} {oldReal : Nat} {i : Inode}
      {count : Nat} {c : Cfg} {refs : List ChunkRef} {retired : List ChunkId}
      (h : Vfs.Truncated p f s newSize c₀ oldReal i count c refs retired s')
  | settings (maxVaultSize : Nat) (dirty : Bool) (shrinkMode : ShrinkOnFinish)
      (h : s' = { s with maxVaultSize := maxVaultSize, dirty := dirty, shrinkMode := shrinkMode })
      (hd : (dirty = true ∧ s.toleratedInodes = []) ∨
        (maxVaultSize = s.maxVaultSize ∧ dirty = s.dirty))

theorem Vfs.Done.moves {p : Plan} {s s' : Vfs} (ht : TreeInv s.tree) {op : Op} {r : Reply}
    (hop : op.isLocal = true) (h : Vfs.Done p s op r s') : Moves p s s' := by
  have hedit : Vfs.Edited s op s' → Moves p s s' := fun he =>
    .edit (Vfs.Edited.dataEdit ht he) (Vfs.treeInv_edited ht he)
  have hsame : s' = s → Moves p s s' := fun he => .along (he ▸ Along.refl)
  cases op with
  | lookup parent name => exact hsame h
  | readdir id => exact hsame h
  | parentOf id => exact hsame h
  | readlink id => exact hsame h
  | stat f =>
      obtain ⟨c, st, hp, hv, -⟩ := h
      exact .along ⟨f, c, hp, hv⟩
  | read f offset bufLen =>
      obtain ⟨c, d, hp, hv, -⟩ := h
      exact .along ⟨f, c, hp, hv⟩
  | write f offset buf =>
      rcases h with ⟨-, he⟩ | ⟨c₀, oldReal, i, count, c, refs, retired, hw⟩
      · exact hsame he
      · exact .write hw
  | truncate f newSize =>
      obtain ⟨c₀, oldReal, i, count, c, refs, retired, hw⟩ := h
      exact .truncate hw
  | flush =>
      obtain ⟨c, hp, hv, -⟩ := h
      exact .along ⟨0, c, hp, hv⟩
  | setMaxVaultSize bytes =>
      rcases h with he | ⟨htol, he⟩
      · exact hsame he
      · exact .settings bytes true s.shrinkMode he (Or.inl ⟨rfl, htol⟩)
  | setShrinkMode mode => exact .settings s.maxVaultSize s.dirty mode h (Or.inr ⟨rfl, rfl⟩)
  | spaceReport =>
      obtain ⟨env, rfl⟩ := h
      exact .along Vfs.withEnv_along
  | mkdir parent name => exact hedit h
  | create parent name mode => exact hedit h
  | symlink parent name target => exact hedit h
  | link targetId newParent newName => exact hedit h
  | unlink parent name => exact hedit h
  | rmdir parent name => exact hedit h
  | rename oldParent oldName newParent newName => exact hedit h
  | chmod id mode => exact hedit h
  | setMtime id mtimeNs => exact hedit h
  | shrink => cases hop
  | shrinkAllowDeniable => cases hop
  | finish => cases hop
  | reopen => cases hop

end Luksbox
