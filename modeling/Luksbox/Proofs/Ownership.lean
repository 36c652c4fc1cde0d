import Luksbox.Proofs.Exec

/-!
# Every slot is owned once

Over any run of calls that do not cut the file, whatever each of them returns,
no slot is in two places and none is at or above `next_chunk_id`. The five
cases of a call are checked one by one: a path keeps the ledger step by step,
an edit of the namespace moves slots to the waiting list at most, and at the
end of a `write` or `truncate` the view accounts for every slot of the old refs
and every slot in flight.
-/

namespace Luksbox

open Lib Relation

/-- A plan that allows everything. -/
def Plan.any : Plan where
  permit := Permit.any
  flushes := True
  early := True
  sooner := True
  copies := fun _ => True
  covers := fun _ => True
  grows := fun _ => True

theorem grants_any {c₀ : Cfg} {base : List ChunkRef} {touched : Nat → Prop} {need : Nat}
    {early : Prop} {copies : ChunkId → Prop} {grows : Nat → Prop} (h : early)
    (hcopies : ∀ x, copies x) :
    Grants { Plan.any with early := early, copies := copies, grows := grows } c₀ base touched
      need where
  copy := fun _ r _ _ _ => hcopies r.id
  fresh := fun _ _ _ _ _ _ _ _ _ => ⟨trivial, h⟩
  full := fun _ _ _ _ _ _ _ _ _ _ _ => ⟨trivial, h⟩
  recycle := fun _ _ _ _ _ _ _ _ => ⟨trivial, fun _ => trivial⟩
  after := fun _ _ _ _ _ _ _ _ _ _ => trivial

theorem granted_any {s : Vfs} {op : Op} : op.Granted Plan.any s := by
  have hextends : ∀ {c₀ : Cfg} {broken : List ChunkId} {need : Nat},
      Extends (Plan.any.first Plan.any.grows) c₀ broken need :=
    fun _ _ _ _ _ _ _ _ _ => ⟨trivial, Or.inr trivial⟩
  cases op with
  | write f offset buf =>
      intro c₀ oldReal i count _ _ _ _ _ _ _ _
      exact .of_chunks rfl (fun _ _ => trivial)
        (fun _ _ _ he hcopies _ => grants_any (he trivial trivial) fun x =>
          hcopies x trivial trivial) hextends
  | truncate f newSize =>
      intro c₀ oldReal i count _ _ _ _ _ _ _
      exact .of_chunks (fun _ _ => trivial) (fun _ _ he hcopies _ =>
        grants_any (he trivial trivial) fun x => hcopies x trivial trivial) fun _ => hextends
  | _ => trivial

/-! ## What is kept -/

theorem TreeInv.frame {s s' : Vfs} (h : TreeInv s.tree) (hf : Frame s s') : TreeInv s'.tree := by
  refine ⟨h.ns.congr hf.nodes, fun id i hi => ?_⟩
  obtain ⟨j, hj, -⟩ := hf.inode_back hi
  rw [hf.nextFileId]
  exact h.fresh id j hj

theorem TreeInv.replaced {s : Vfs} (h : TreeInv s.tree) {f : FileId} {chunks : List ChunkRef}
    {newReal : Nat} {freed : List ChunkId} :
    TreeInv (s.replaced f chunks newReal freed).tree := by
  refine ⟨h.ns.adjust fun _ => rfl, fun id i hi => ?_⟩
  obtain ⟨j, hj⟩ := OrdMap.exists_of_get?_adjust hi
  exact h.fresh id j hj

/-- Refs and slots in flight are exchanged for the old refs. -/
theorem Ledger.replaced {c : Cfg} (h : Ledger c) {f : FileId} {i : Inode} {chunks : List ChunkRef}
    {newReal : Nat} {freed : List ChunkId} (hi : c.vfs.tree.inodes.get? f = some i)
    (hcount : ∀ x, (chunks.map ChunkRef.id).count x + freed.count x =
      i.dataIds.count x + c.flight.count x) :
    Ledger ⟨[], [], c.vfs.replaced f chunks newReal freed⟩ := by
  refine h.of_le (fun x => ?_) (le_refl _)
  have hadj := OrdMap.tally_adjust (g := Inode.refIds) (x := x) (f := fun inode =>
    { inode with
      chunks := chunks
      size := if c.vfs.hideSize then chunks.length * chunkPlaintextSize else newReal
      cachedRealSize := if c.vfs.hideSize then some newReal else inode.cachedRealSize
      mtimeNs := c.vfs.container.env.nowNs }) hi
  rw [Ledger.refIds_count, Ledger.refIds_count] at hadj
  have hx := hcount x
  unfold Inode.dataIds at hx
  unfold Cfg.held
  simp only [Vfs.replaced, Vfs.mapInode, List.count_append, List.count_nil] at hadj ⊢
  omega

/-- The state between calls. -/
structure Owned (s : Vfs) : Prop where
  tree : TreeInv s.tree
  ledger : Ledger ⟨[], [], s⟩

namespace Owned

variable {p : Plan} {s s' : Vfs}

theorem along {P : Permit} (h : Owned s) (ha : Along P s s') : Owned s' := by
  obtain ⟨f, c, hp, rfl⟩ := ha
  have hl := h.ledger.path hp
  exact ⟨h.tree.frame (Path.frame hp), hl.of_le (fun x => by unfold Cfg.held; simp) (le_refl _)⟩

theorem written {f : FileId} {offset : Nat} {buf : List UInt8} {c₀ : Cfg} {oldReal : Nat}
    {i : Inode} {count : Nat} {c : Cfg} {refs : List ChunkRef} {retired : List ChunkId}
    (h : Owned s) (hw : Vfs.Written p f s offset buf c₀ oldReal i count c refs retired s') :
    Owned s' := by
  obtain ⟨pts, hview, -⟩ := hw.sees
  have hframe₀ := Path.frame hw.begun.path
  have hframe := Path.frame hview.path
  obtain ⟨i', hi', hbare⟩ := hframe.inode hw.inode
  have hl : Ledger c := (hw.begun.ledger h.ledger).path hview.path
  rw [hw.final]
  refine ⟨((h.tree.frame hframe₀).frame hframe).replaced, hl.replaced hi' fun x => ?_⟩
  unfold Inode.dataIds
  rw [Inode.bare_chunks hbare]
  exact hview.count x

theorem truncated {f : FileId} {newSize : Nat} {c₀ : Cfg} {oldReal : Nat} {i : Inode} {count : Nat}
    {c : Cfg} {refs : List ChunkRef} {retired : List ChunkId} (h : Owned s)
    (hw : Vfs.Truncated p f s newSize c₀ oldReal i count c refs retired s') : Owned s' := by
  obtain ⟨pts, hview, -⟩ := hw.sees
  have hframe₀ := Path.frame hw.begun.path
  have hframe := Path.frame hview.path
  obtain ⟨i', hi', hbare⟩ := hframe.inode hw.inode
  have hl : Ledger c := (hw.begun.ledger h.ledger).path hview.path
  rw [hw.final]
  refine ⟨((h.tree.frame hframe₀).frame hframe).replaced, hl.replaced hi' fun x => ?_⟩
  unfold Inode.dataIds
  rw [Inode.bare_chunks hbare]
  have hx := hview.count x
  -- the refs that are dropped go to the waiting list, in reverse
  have hsplit : (i.chunks.map ChunkRef.id).count x =
      ((i.chunks.take count).map ChunkRef.id).count x +
        ((i.chunks.drop count).map ChunkRef.id).count x := by
    rw [← List.count_append, ← List.map_append, List.take_append_drop]
  rw [List.map_reverse, List.count_append, List.count_reverse]
  omega

theorem moves (h : Owned s) (hm : Moves p s s') : Owned s' := by
  cases hm with
  | edit hd ht => exact ⟨ht, hd.ledger h.ledger⟩
  | along ha => exact h.along ha
  | write hw => exact h.written hw
  | truncate hw => exact h.truncated hw
  | settings m d k heq hd =>
      rw [heq]
      exact ⟨h.tree, h.ledger.of_le (fun _ => le_refl _) (le_refl _)⟩

theorem withEnv (h : Owned s) {env : Env} : Owned (s.withEnv env) :=
  ⟨h.tree, h.ledger.of_le (fun _ => le_refl _) (le_refl _)⟩

theorem step (h : Owned s) {c : Call} (hop : c.op.isLocal = true) : Owned (s.step c) := by
  have henv : Owned (s.withEnv c.env) := h.withEnv
  refine Vfs.step_of_wp (wp_mono (Vfs.exec_spec henv.tree henv.ledger hop granted_any) ?_ ?_)
  · intro r s' hd
    exact henv.moves (hd.moves henv.tree hop)
  · intro e s' he
    exact henv.along he.2

theorem run (h : Owned s) {calls : List Call} (hops : ∀ c ∈ calls, c.op.isLocal = true) :
    Owned (s.run calls) := by
  induction calls generalizing s with
  | nil => exact h
  | cons c calls ih =>
      rw [Vfs.run_cons]
      exact ih (h.step (hops c List.mem_cons_self)) fun c' hc' => hops c' (List.mem_cons_of_mem _ hc')

end Owned

/-! ## Where it starts -/

theorem Ledger.new {s : Vfs} (ht : s.tree = DirectoryTree.new) (hp : s.pendingFree = []) :
    Ledger ⟨[], [], s⟩ := by
  have hzero : ∀ x, (Cfg.mk [] [] s).held x = 0 := by
    intro x
    unfold Cfg.held
    simp only [ht, hp]
    rfl
  exact ⟨fun x => by rw [hzero]; omega, fun x hx => by rw [hzero] at hx; omega⟩

theorem Valid.refs_bound {t : DirectoryTree} {dataOffset : Nat} {hideSize : Bool}
    (h : Valid t dataOffset hideSize) {x : ChunkId} (hx : x ∈ t.inodes.refIds) :
    x < t.nextChunkId := by
  rw [← Vfs.allRefs_ids] at hx
  obtain ⟨r, hr, rfl⟩ := List.mem_map.mp hx
  obtain ⟨i, hi, hr⟩ := List.mem_flatMap.mp hr
  obtain ⟨id, hid⟩ := OrdMap.mem_values_iff.mp hi
  exact ((h.inodes id i hid).refs r hr).1

theorem Ledger.ofValid {s : Vfs} {dataOffset : Nat} {hideSize : Bool}
    (h : Valid s.tree dataOffset hideSize) (hp : s.pendingFree = []) : Ledger ⟨[], [], s⟩ := by
  have htally : ∀ x, s.tree.inodes.tally Inode.refIds x = s.tree.inodes.refIds.count x :=
    fun _ => rfl
  have hheld : ∀ x, (Cfg.mk [] [] s).held x =
      s.tree.inodes.refIds.count x + s.tree.freeChunks.count x := by
    intro x
    unfold Cfg.held
    simp only [hp, htally, List.count_nil]
    omega
  refine ⟨fun x => ?_, fun x hx => ?_⟩
  · rw [hheld]
    have hrefs := List.nodup_iff_count_le_one.mp h.refs x
    have hfree := List.nodup_iff_count_le_one.mp h.freeNodup x
    by_cases hin : x ∈ s.tree.freeChunks
    · have hnot := (h.free x hin).2.1
      rw [List.count_eq_zero.mpr hnot]
      omega
    · rw [List.count_eq_zero.mpr hin]
      omega
  · rw [hheld] at hx
    by_cases hin : x ∈ s.tree.freeChunks
    · exact (h.free x hin).1
    · rw [List.count_eq_zero.mpr hin] at hx
      have hmem : x ∈ s.tree.inodes.refIds := List.count_pos_iff.mp (by omega)
      exact h.refs_bound hmem

theorem Starts.owned {s : Vfs} (h : Starts s) (hp : s.pendingFree = []) : Owned s := by
  refine ⟨h.treeInv, ?_⟩
  rcases h with h | ⟨h, -⟩
  · exact Ledger.new h hp
  · exact Ledger.ofValid (validate_iff.mp h) hp

/-! ## The slots of a state -/

/-- The slots of all places: data chunks, list blocks, free, and freed since the
last flush. -/
def Vfs.slotIds (s : Vfs) : List ChunkId :=
  s.tree.inodes.values.flatMap Inode.dataIds ++ s.tree.inodes.values.flatMap Inode.listIds
    ++ s.tree.freeChunks ++ s.pendingFree

theorem count_slotIds {s : Vfs} {x : ChunkId} : s.slotIds.count x = (Cfg.mk [] [] s).held x := by
  unfold Vfs.slotIds Cfg.held
  rw [List.count_append, List.count_append, List.count_append, refIds_tally]
  unfold OrdMap.tally
  simp only [List.count_nil]
  omega

/-- What is allocated is in no inode. -/
theorem Ledger.alloc_unreferenced {c : Cfg} (h : Ledger c) {id : ChunkId} {t : DirectoryTree}
    (ha : c.vfs.tree.allocChunkId = some (id, t)) {g : FileId} {i : Inode}
    (hi : c.vfs.tree.inodes.get? g = some i) : id ∉ i.refIds := by
  intro hmem
  have hone := (h.take ha).once id
  have htally : 0 < t.inodes.tally Inode.refIds id := by
    have hin : t.inodes = c.vfs.tree.inodes := by
      rcases allocChunkId_cases ha with ⟨-, ht⟩ | ⟨-, -, -, ht⟩
      · rw [ht]
      · rw [ht]
    rw [hin, OrdMap.tally_of_get? hi]
    have := List.count_pos_iff.mpr hmem
    omega
  unfold Cfg.held at hone
  simp only [Vfs.withTree, List.count_cons_self] at hone
  omega

/-- In every state a run reaches no slot is in two places, all are below
`next_chunk_id`, and neither there nor at any point inside the next call does
an allocation return a slot that an inode refers to. -/
theorem slots_owned_once {s : Vfs} (hs : Starts s) (hp : s.pendingFree = []) {calls : List Call}
    (hops : ∀ c ∈ calls, c.op.isLocal = true) :
    (s.run calls).slotIds.Nodup ∧
      (∀ x ∈ (s.run calls).slotIds, x < (s.run calls).tree.nextChunkId) ∧
      ∀ P f c, Path P f ⟨[], [], s.run calls⟩ c → ∀ id t,
        c.vfs.tree.allocChunkId = some (id, t) → ∀ g i,
          c.vfs.tree.inodes.get? g = some i → id ∉ i.refIds := by
  have howned := (hs.owned hp).run hops
  refine ⟨?_, ?_, ?_⟩
  · rw [List.nodup_iff_count_le_one]
    intro x
    rw [count_slotIds]
    exact howned.ledger.once x
  · intro x hx
    refine howned.ledger.bound x ?_
    rw [← count_slotIds]
    exact List.count_pos_iff.mpr hx
  · intro P f c hpath id t ha g i hi
    exact (howned.ledger.path hpath).alloc_unreferenced ha hi

/-- A new vault. -/
def roomyVfs : Vfs := Vfs.fresh (Container.created ⟨2, false, false, 16384, 32768⟩ false 5 7) .v5

/-- A file with its chunk list in a chain, one that was removed before a flush and one
that was removed after. -/
def busyCalls : List Call :=
  [ (Op.create 1 "f" 0o644).quiet, (Op.create 1 "g" 0o644).quiet, (Op.create 1 "h" 0o644).quiet,
    (Op.truncate 2 (257 * 4096)).quiet, (Op.truncate 3 8192).quiet, (Op.truncate 4 4096).quiet,
    (Op.unlink 1 "g").quiet, Op.flush.quiet, (Op.unlink 1 "h").quiet ]

/-- A write whose own slot cannot be written to. -/
def failingWrite : Call := ⟨.write 2 0 [1], { Env.quiet with io := [.ok, .before] }⟩

/-- Slots of every kind are there when the write fails, and after it. -/
theorem slots_owned_once_busy :
    ((roomyVfs.run (busyCalls ++ [failingWrite])).slotIds.Nodup ∧
      (∀ x ∈ (roomyVfs.run (busyCalls ++ [failingWrite])).slotIds,
        x < (roomyVfs.run (busyCalls ++ [failingWrite])).tree.nextChunkId) ∧
      ∀ P f c, Path P f ⟨[], [], roomyVfs.run (busyCalls ++ [failingWrite])⟩ c → ∀ id t,
        c.vfs.tree.allocChunkId = some (id, t) → ∀ g i,
          c.vfs.tree.inodes.get? g = some i → id ∉ i.refIds) ∧
      ((roomyVfs.run busyCalls).tree.inodes.values.flatMap Inode.listIds ≠ [] ∧
        (roomyVfs.run busyCalls).tree.freeChunks ≠ [] ∧
        (roomyVfs.run busyCalls).pendingFree ≠ [] ∧
        (match (roomyVfs.run busyCalls).call failingWrite with
          | .ok _ _ => true
          | .error _ _ => false) = false) :=
  ⟨slots_owned_once (Or.inl rfl) rfl (by decide), by decide +kernel⟩

end Luksbox
