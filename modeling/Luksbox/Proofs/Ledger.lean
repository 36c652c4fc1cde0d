import Luksbox.Proofs.Micro

/-!
# Slot ownership

A slot is in one place at a time: it is a chunk or a list block of one inode,
it is free, it was freed since the last flush, or the running call has it in
flight. `held` counts the places, and `Ledger` says that no slot has two and
that all of them are below `next_chunk_id`.

Counting makes each kind of step an equation between numbers: a step that hands
slots from one place to another leaves `held` alone, one that forgets some
lowers it, and only an allocation past the end raises it, for an id that no
place had.
-/

namespace Luksbox

open Lib Relation

/-- In how many places a slot is. -/
def Cfg.held (c : Cfg) (x : ChunkId) : Nat :=
  c.flight.count x + c.vfs.tree.inodes.tally Inode.refIds x + c.vfs.tree.freeChunks.count x
    + c.vfs.pendingFree.count x

structure Ledger (c : Cfg) : Prop where
  once : ∀ x, c.held x ≤ 1
  bound : ∀ x, 0 < c.held x → x < c.vfs.tree.nextChunkId

namespace Ledger

variable {P : Permit} {f : FileId} {c c' : Cfg}

/-- Slots that are in no more places than before. -/
theorem of_le (h : Ledger c) (hle : ∀ x, c'.held x ≤ c.held x)
    (hnext : c.vfs.tree.nextChunkId ≤ c'.vfs.tree.nextChunkId) : Ledger c' where
  once := fun x => (hle x).trans (h.once x)
  bound := fun x hx => (h.bound x (hx.trans_le (hle x))).trans_le hnext

theorem refIds_count {i : Inode} {x : ChunkId} : i.refIds.count x =
    (i.chunks.map ChunkRef.id).count x + (i.externalListBlocks.map ChunkRef.id).count x := by
  unfold Inode.refIds
  rw [List.count_append]

theorem take (h : Ledger c) {id : ChunkId} {t : DirectoryTree}
    (ht : c.vfs.tree.allocChunkId = some (id, t)) :
    Ledger ⟨id :: c.flight, c.broken, c.vfs.withTree t⟩ := by
  rcases allocChunkId_cases ht with ⟨hfree, ht⟩ | ⟨hfree, hid, -, ht⟩
  · refine h.of_le (fun x => ?_) (by rw [ht]; exact le_refl _)
    unfold Cfg.held
    simp only [Vfs.withTree]
    rw [hfree, ht, List.count_append, List.count_cons, List.count_singleton]
    simp only
    omega
  · -- the id past the end is in no place yet
    have hheld : ∀ x, (Cfg.mk (id :: c.flight) c.broken (c.vfs.withTree t)).held x =
        c.held x + if x = id then 1 else 0 := by
      intro x
      unfold Cfg.held
      simp only [Vfs.withTree]
      rw [ht, List.count_cons]
      simp only [beq_iff_eq, eq_comm (a := id)]
      omega
    have hnext : t.nextChunkId = c.vfs.tree.nextChunkId + 1 := by rw [ht]
    refine ⟨fun x => ?_, fun x hx => ?_⟩
    · rw [hheld]
      have hone := h.once x
      split
      · next hx =>
          have hzero : ¬ 0 < c.held x := fun hpos => by
            have hlt := h.bound x hpos
            rw [hx, hid] at hlt
            exact Nat.lt_irrefl _ hlt
          omega
      · omega
    · show x < t.nextChunkId
      rw [hheld] at hx
      rw [hnext]
      by_cases hxid : x = id
      · rw [hxid, hid]
        exact Nat.lt_succ_self _
      · rw [if_neg hxid] at hx
        exact Nat.lt_succ_of_lt (h.bound x hx)

/-- The freed slots moved to the free list, or stayed where they were. -/
theorem held_published {L B : List ChunkId} {s s' : Vfs} (h : Published s s') (x : ChunkId) :
    (Cfg.mk L B s').held x = (Cfg.mk L B s).held x := by
  unfold Cfg.held
  have hin : s'.tree.inodes = s.tree.inodes := by rw [h.tree]
  simp only [hin]
  rcases h.lists with ⟨hf, hp⟩ | ⟨hf, hp⟩
  · rw [hf, hp]
  · rw [hf, hp, List.count_append, List.count_nil]
    omega

theorem micro (h : Ledger c) (hs : Micro P f c c') : Ledger c' := by
  cases hs with
  | env e => exact h.of_le (fun x => le_refl _) (le_refl _)
  | sealed x => exact h.of_le (fun x => le_refl _) (le_refl _)
  | gen hg => exact h.of_le (fun x => le_refl _) (le_refl _)
  | take ht => exact h.take ht
  | store off slot written hid => exact h.of_le (fun x => le_refl _) (le_refl _)
  | inPlace off slot written hi hid hp => exact h.of_le (fun x => le_refl _) (le_refl _)
  | give ids hids =>
      refine h.of_le (fun x => ?_) (le_refl _)
      unfold Cfg.held
      simp only [List.count_append]
      have := hids x
      omega
  | @cache L B s size hsize =>
      refine h.of_le (fun x => ?_) (le_refl _)
      have htally : (s.tree.inodes.adjust f fun i => { i with cachedRealSize := some size }).tally
          Inode.refIds x = s.tree.inodes.tally Inode.refIds x := by
        refine OrdMap.tally_adjust_of_eq ?_
        intro i
        rfl
      unfold Cfg.held
      simp only [Vfs.mapInode]
      omega
  | @drain L B s g i hi =>
      refine h.of_le (fun x => ?_) (le_refl _)
      unfold Cfg.held
      have hadj := OrdMap.tally_adjust (g := Inode.refIds) (x := x)
        (f := fun i => { i with externalListBlocks := [] }) hi
      rw [refIds_count, refIds_count] at hadj
      simp only [Vfs.drained, Vfs.mapInode, List.count_append] at hadj ⊢
      simp only [List.map_nil, List.count_nil] at hadj
      omega
  | @chain L L' B s g i refs hi hnone hids =>
      refine h.of_le (fun x => ?_) (le_refl _)
      unfold Cfg.held
      have hadj := OrdMap.tally_adjust (g := Inode.refIds) (x := x)
        (f := fun i => { i with externalListBlocks := refs }) hi
      have hx := hids x
      rw [refIds_count, refIds_count, hnone] at hadj
      simp only [Vfs.mapInode] at hadj ⊢
      simp only [List.map_nil, List.count_nil] at hadj
      omega
  | floor => exact h.of_le (fun x => le_refl _) (le_refl _)
  | upgradeHeader =>
      unfold Vfs.upgradeHeader
      split
      · exact h.of_le (fun x => le_refl _) (le_refl _)
      · exact h
  | upgradeToV4 =>
      unfold Vfs.upgradeToV4
      split
      · exact h.of_le (fun x => le_refl _) (le_refl _)
      · exact h
  | publish hb hl =>
      have hpub := hl.published
      refine h.of_le (fun x => le_of_eq (held_published hpub x)) ?_
      rw [hpub.tree]

theorem path (h : Ledger c) (hp : Path P f c c') : Ledger c' := by
  refine path_inv (I := Ledger) ?_ hp h
  intro a b ha hs
  exact ha.micro hs

end Ledger

/-! ## Slots a flush does not touch -/

def Inode.dataIds (i : Inode) : List ChunkId := i.chunks.map ChunkRef.id

def Inode.listIds (i : Inode) : List ChunkId := i.externalListBlocks.map ChunkRef.id

/-- A slot that no flush can get hold of: it is neither free nor about to be,
and no list block. -/
structure Guarded (s : Vfs) (x : ChunkId) : Prop where
  free : s.tree.freeChunks.count x = 0
  pending : s.pendingFree.count x = 0
  lists : s.tree.inodes.tally Inode.listIds x = 0
  bound : x < s.tree.nextChunkId

theorem refIds_tally {m : Inodes} {x : ChunkId} :
    m.tally Inode.refIds x = m.tally Inode.dataIds x + m.tally Inode.listIds x := by
  unfold OrdMap.tally
  induction m.values with
  | nil => rfl
  | cons i l ih =>
      rw [List.flatMap_cons, List.flatMap_cons, List.flatMap_cons, List.count_append,
        List.count_append, List.count_append, ih, Ledger.refIds_count]
      unfold Inode.dataIds Inode.listIds
      omega

/-- Slots of data chunks and slots in flight are such. -/
theorem Ledger.guarded {c : Cfg} (h : Ledger c) {x : ChunkId}
    (hx : x ∈ c.flight ∨ 0 < c.vfs.tree.inodes.tally Inode.dataIds x) : Guarded c.vfs x := by
  have hone := h.once x
  have hbound := h.bound x
  unfold Cfg.held at hone hbound
  rw [refIds_tally] at hone hbound
  have hpos : 0 < c.flight.count x ∨ 0 < c.vfs.tree.inodes.tally Inode.dataIds x :=
    hx.imp List.count_pos_iff.mpr id
  exact ⟨by omega, by omega, by omega, hbound (by omega)⟩

theorem Guarded.micro {P : Permit} (hP : ∀ id, ¬ P.inPlace id) {f : FileId} {c c' : Cfg}
    (hs : Micro P f c c') {x : ChunkId} (hg : Guarded c.vfs x) (hx : x ∉ c.flight) :
    Guarded c'.vfs x ∧ x ∉ c'.flight ∧
      c'.vfs.container.slots x = c.vfs.container.slots x := by
  obtain ⟨hfree, hpend, hlist, hbound⟩ := hg
  cases hs with
  | env e => exact ⟨⟨hfree, hpend, hlist, hbound⟩, hx, rfl⟩
  | sealed x => exact ⟨⟨hfree, hpend, hlist, hbound⟩, hx, rfl⟩
  | gen hgen => exact ⟨⟨hfree, hpend, hlist, hbound⟩, hx, rfl⟩
  | @take L B s id t ht =>
      have hne : x ≠ id := by
        rintro rfl
        rcases allocChunkId_cases ht with ⟨hf, -⟩ | ⟨-, hid, -⟩
        · have hfree : s.tree.freeChunks.count x = 0 := hfree
          rw [hf, List.count_append, List.count_singleton_self] at hfree
          omega
        · exact absurd hbound (by rw [hid]; exact Nat.lt_irrefl _)
      have hmem : x ∉ id :: L := by
        rw [List.mem_cons]
        exact fun h => h.elim hne hx
      refine ⟨?_, hmem, rfl⟩
      rcases allocChunkId_cases ht with ⟨hf, ht⟩ | ⟨-, -, -, ht⟩
      · refine ⟨?_, hpend, ?_, ?_⟩
        · have hfree : s.tree.freeChunks.count x = 0 := hfree
          rw [hf, List.count_append] at hfree
          show t.freeChunks.count x = 0
          omega
        · show t.inodes.tally _ x = 0
          rw [ht]
          exact hlist
        · show x < t.nextChunkId
          rw [ht]
          exact hbound
      · rw [ht]
        exact ⟨hfree, hpend, hlist, Nat.lt_succ_of_lt hbound⟩
  | store off slot written hid =>
      refine ⟨⟨hfree, hpend, hlist, hbound⟩, hx, ?_⟩
      refine Function.update_of_ne ?_ _ _
      rintro rfl
      exact hx hid
  | inPlace off slot written hi hid hp => exact absurd hp (hP _)
  | @give L L' B s ids hids =>
      have hL := hids x
      rw [List.count_eq_zero.mpr hx] at hL
      have hpend : s.pendingFree.count x = 0 := hpend
      refine ⟨⟨hfree, ?_, hlist, hbound⟩, ?_, rfl⟩
      · show (s.pendingFree ++ ids).count x = 0
        rw [List.count_append]
        omega
      · show x ∉ L'
        rw [← List.count_eq_zero]
        omega
  | @cache L B s size hsize =>
      refine ⟨⟨hfree, hpend, ?_, hbound⟩, hx, rfl⟩
      refine (OrdMap.tally_adjust_of_eq ?_).trans hlist
      intro i
      rfl
  | @drain L B s g i hi =>
      have hadj := OrdMap.tally_adjust (g := Inode.listIds) (x := x)
        (f := fun i => { i with externalListBlocks := [] }) hi
      have hlist : s.tree.inodes.tally Inode.listIds x = 0 := hlist
      have hnil : (Inode.listIds { i with externalListBlocks := [] }).count x = 0 := rfl
      rw [hlist, hnil] at hadj
      refine ⟨⟨hfree, ?_, ?_, hbound⟩, hx, rfl⟩
      · show (s.pendingFree ++ i.listIds).count x = 0
        have hpend : s.pendingFree.count x = 0 := hpend
        rw [List.count_append]
        omega
      · show OrdMap.tally (OrdMap.adjust _ _ _) _ _ = 0
        omega
  | @chain L L' B s g i refs hi hnone hids =>
      have hL := hids x
      rw [List.count_eq_zero.mpr hx] at hL
      have hadj := OrdMap.tally_adjust (g := Inode.listIds) (x := x)
        (f := fun i => { i with externalListBlocks := refs }) hi
      have hlist : s.tree.inodes.tally Inode.listIds x = 0 := hlist
      have hrefs : (Inode.listIds { i with externalListBlocks := refs }).count x =
          (refs.map ChunkRef.id).count x := rfl
      rw [hlist, hrefs] at hadj
      refine ⟨⟨hfree, hpend, ?_, hbound⟩, ?_, rfl⟩
      · show OrdMap.tally (OrdMap.adjust _ _ _) _ _ = 0
        omega
      · show x ∉ L'
        rw [← List.count_eq_zero]
        omega
  | floor => exact ⟨⟨hfree, hpend, hlist, hbound⟩, hx, rfl⟩
  | upgradeHeader =>
      unfold Vfs.upgradeHeader
      split
      · exact ⟨⟨hfree, hpend, hlist, hbound⟩, hx, rfl⟩
      · exact ⟨⟨hfree, hpend, hlist, hbound⟩, hx, rfl⟩
  | upgradeToV4 =>
      unfold Vfs.upgradeToV4
      split
      · exact ⟨⟨hfree, hpend, hlist, hbound⟩, hx, rfl⟩
      · exact ⟨⟨hfree, hpend, hlist, hbound⟩, hx, rfl⟩
  | @publish L B s s' hb hl =>
      have hpub := hl.published
      have hfree : s.tree.freeChunks.count x = 0 := hfree
      have hpend : s.pendingFree.count x = 0 := hpend
      refine ⟨⟨?_, ?_, ?_, ?_⟩, hx, congrFun hpub.container.slots x⟩
      · rcases hpub.lists with ⟨hf, -⟩ | ⟨hf, -⟩
        · rw [hf, hfree]
        · rw [hf, List.count_append]
          omega
      · rcases hpub.lists with ⟨-, hp⟩ | ⟨-, hp⟩
        · rw [hp, hpend]
        · rw [hp, List.count_nil]
      · show s'.tree.inodes.tally _ x = 0
        rw [hpub.tree]
        exact hlist
      · show x < s'.tree.nextChunkId
        rw [hpub.tree]
        exact hbound

theorem Guarded.path {P : Permit} (hP : ∀ id, ¬ P.inPlace id) {f : FileId} {c c' : Cfg}
    (hp : Path P f c c') {x : ChunkId} (hg : Guarded c.vfs x) (hx : x ∉ c.flight) :
    c'.vfs.container.slots x = c.vfs.container.slots x := by
  have hall : Guarded c'.vfs x ∧ x ∉ c'.flight ∧
      c'.vfs.container.slots x = c.vfs.container.slots x := by
    induction hp with
    | refl => exact ⟨hg, hx, rfl⟩
    | tail _ hs ih =>
        obtain ⟨hg', hx', heq⟩ := ih
        obtain ⟨hg'', hx'', heq'⟩ := hg'.micro hP hs hx'
        exact ⟨hg'', hx'', heq'.trans heq⟩
  exact hall.2.2

end Luksbox
