import Luksbox.Proofs.Generations
import Luksbox.Proofs.Ownership

/-!
# The chunk lists of committed metadata

A row of the metadata has a file's refs, or the head and the length of a chain
that has them. What a commit refers to is what a reader makes of its rows with
the slots there are (`Commit.Lists`).

That the chain of a row has the refs of the inode is an invariant (`Listed`):
nothing writes to the slot of a list block but the flush that took it, and a
file whose refs change is marked, so that the next flush writes its chain anew.
A state that is published has a chain for every list that needs one, so each of
its rows lists the refs of its inode.
-/

namespace Luksbox

open Lib Relation

/-! ## Rows -/

/-- A row: the inline refs, and the head of the chain with the number of refs. -/
abbrev ListRow := List ChunkRef × Option (ChunkRef × Nat)

def Metadata.rows : Metadata → OrdMap FileId ListRow
  | .empty => OrdMap.empty
  | .lbm2 tree => tree.inodes.mapVals fun i => (i.chunks, none)
  | .lbm3 tree => tree.inodes.mapVals fun od => (od.chunks, od.chunksExternal)
  | .lbm4 tree => tree.inodes.mapVals fun od => (od.chunks, od.chunksExternal)
  | .lbm5 tree => tree.inodes.mapVals fun od => (od.chunks, od.chunksExternal)
  | .lbm6 tree _ => tree.inodes.mapVals fun od => (od.chunks, od.chunksExternal)
  | .unknown _ => OrdMap.empty

/-- The refs of a row, read with the slots as they were at the commit. -/
def Commit.Lists (k : Commit) (key : FileId → SubKey) (f : FileId) (row : ListRow)
    (refs : List ChunkRef) : Prop :=
  match row.2 with
  | none => refs = row.1
  | some (head, count) => row.1 = [] ∧ refs.length = count ∧
      ∃ blocks, blocks.head? = some head ∧
        Chained k.slots (key (listFileId f)) f 0 blocks refs

/-- Every row has refs, and each of them opens its slot, under the key of its file
and for its index and generation. -/
def Commit.Intact (k : Commit) (key : FileId → SubKey) : Prop :=
  ∀ f row, k.blob.rows.get? f = some row → ∃ refs, k.Lists key f row refs ∧
    ∀ (idx : Nat) (r : ChunkRef), refs[idx]? = some r →
      k.slots r.id (key f) (chunkAad f (idx % 2 ^ 32) r.generation) ≠ none

/-- A row determines its refs. -/
theorem Commit.Lists.unique {k : Commit} {key : FileId → SubKey} {f : FileId} {row : ListRow}
    {refs refs' : List ChunkRef} (h : k.Lists key f row refs) (h' : k.Lists key f row refs') :
    refs' = refs := by
  obtain ⟨chunks, external⟩ := row
  cases external with
  | none =>
      have h : refs = chunks := h
      have h' : refs' = chunks := h'
      exact h'.trans h.symm
  | some chain =>
      obtain ⟨-, -, blocks, hhead, hchain⟩ := h
      obtain ⟨-, -, blocks', hhead', hchain'⟩ := h'
      exact (hchain.unique hchain' (hhead'.trans hhead.symm)).2

namespace Vfs

variable {s s' : Vfs}

/-- The row of an inode. -/
def rowOf (s : Vfs) (i : Inode) : ListRow :=
  if s.format = .v2 then (i.chunks, none)
  else ((i.onDisk s.format).chunks, (i.onDisk s.format).chunksExternal)

theorem treeV3Of_rows : s.treeV3Of.inodes.mapVals (fun od => (od.chunks, od.chunksExternal)) =
    s.tree.inodes.mapVals fun i =>
      ((i.onDisk s.format).chunks, (i.onDisk s.format).chunksExternal) := by
  unfold treeV3Of
  rw [OrdMap.mapVals_mapVals]

theorem treeV4Of_rows : s.treeV4Of.inodes.mapVals (fun od => (od.chunks, od.chunksExternal)) =
    s.tree.inodes.mapVals fun i =>
      ((i.onDisk s.format).chunks, (i.onDisk s.format).chunksExternal) := by
  unfold treeV4Of
  rw [OrdMap.mapVals_mapVals]
  rfl

theorem rowOf_v2 (hf : s.format = .v2) : s.rowOf = fun i => (i.chunks, none) := by
  funext i
  unfold rowOf
  rw [if_pos hf]

theorem rowOf_spilled (hf : s.format ≠ .v2) :
    s.rowOf = fun i => ((i.onDisk s.format).chunks, (i.onDisk s.format).chunksExternal) := by
  funext i
  unfold rowOf
  rw [if_neg hf]

theorem blobOf_rows : s.blobOf.rows = s.tree.inodes.mapVals s.rowOf := by
  cases hf : s.format with
  | v5 =>
      rw [rowOf_spilled (by rw [hf]; nofun), ← treeV4Of_rows]
      unfold blobOf
      rw [hf]
      simp only
      split <;> rfl
  | v4 =>
      rw [rowOf_spilled (by rw [hf]; nofun), ← treeV4Of_rows]
      unfold blobOf
      rw [hf]
      rfl
  | v3 =>
      rw [rowOf_spilled (by rw [hf]; nofun), ← treeV3Of_rows]
      unfold blobOf
      rw [hf]
      rfl
  | v2 =>
      rw [rowOf_v2 hf]
      unfold blobOf
      rw [hf]
      simp only [Metadata.rows, DirectoryTree.skipFields, OrdMap.mapVals_mapVals]
      rfl

/-! ## Chains between flushes -/

/-- The chain of a file that is not marked has the refs of its inode; LBM2 has no
chains. -/
structure Listed (s : Vfs) : Prop where
  chains : ∀ g i, s.tree.inodes.get? g = some i → i.externalListBlocks ≠ [] →
    g ∈ s.chunksDirty ∨ s.Links g i
  inline : s.format = .v2 → ∀ g i, s.tree.inodes.get? g = some i → i.externalListBlocks = []

theorem listed_new (h : s.tree = DirectoryTree.new) : s.Listed := by
  have hnil : ∀ g i, s.tree.inodes.get? g = some i → i.externalListBlocks = [] := by
    intro g i hi
    rw [h] at hi
    unfold DirectoryTree.new at hi
    rw [OrdMap.get?_insert] at hi
    split at hi
    · injection hi with hi
      rw [← hi]
      rfl
    · cases hi
  exact ⟨fun g i hi hne => absurd (hnil g i hi) hne, fun _ => hnil⟩

/-- What leaves the chains alone: list blocks are those of before or none, their
slots are as they were, and a file whose refs change is marked. -/
theorem Listed.congr (h : s.Listed)
    (hin : ∀ g i', s'.tree.inodes.get? g = some i' → i'.externalListBlocks ≠ [] →
      ∃ i, s.tree.inodes.get? g = some i ∧ i'.externalListBlocks = i.externalListBlocks ∧
        (g ∈ s'.chunksDirty ∨ i'.chunks = i.chunks))
    (hmarks : ∀ g i', s'.tree.inodes.get? g = some i' → g ∈ s.chunksDirty → g ∈ s'.chunksDirty)
    (hkey : s'.container.fileKey = s.container.fileKey)
    (hslots : ∀ g i, s.tree.inodes.get? g = some i → ∀ x ∈ i.listIds,
      s'.container.slots x = s.container.slots x)
    (hformat : s'.format = .v2 → s.format = .v2) : s'.Listed := by
  refine ⟨fun g i' hi' hne => ?_, fun hf g i' hi' => ?_⟩
  · obtain ⟨i, hi, hblocks, hchunks⟩ := hin g i' hi' hne
    rcases hchunks with hmark | hchunks
    · exact .inl hmark
    rcases h.chains g i hi (hblocks ▸ hne) with hmark | hlinks
    · exact .inl (hmarks g i' hi' hmark)
    · refine .inr ?_
      unfold Links at hlinks ⊢
      have hlist : s'.container.listFileKey g = s.container.listFileKey g := congrFun hkey _
      rw [hblocks, hchunks, hlist]
      exact hlinks.congr fun b hb => hslots g i hi b.id (List.mem_map_of_mem hb)
  · by_contra hne
    obtain ⟨i, hi, hblocks, -⟩ := hin g i' hi' hne
    exact hne (hblocks.trans (h.inline (hformat hf) g i hi))

/-- The same inodes, with at least the marks there were. -/
theorem Listed.same (h : s.Listed) (hin : s'.tree.inodes = s.tree.inodes)
    (hmarks : s.chunksDirty ⊆ s'.chunksDirty) (hkey : s'.container.fileKey = s.container.fileKey)
    (hslots : ∀ g i, s.tree.inodes.get? g = some i → ∀ x ∈ i.listIds,
      s'.container.slots x = s.container.slots x)
    (hformat : s'.format = .v2 → s.format = .v2) : s'.Listed := by
  refine h.congr (fun g i' hi' _ => ⟨i', ?_, rfl, .inr rfl⟩) (fun g _ _ hg => hmarks hg) hkey hslots
    hformat
  rw [← hin]
  exact hi'

end Vfs

/-- The slot of a list block is not in flight and no data chunk. -/
theorem Ledger.list_apart {c : Cfg} (h : Ledger c) {g : FileId} {i : Inode}
    (hi : c.vfs.tree.inodes.get? g = some i) {x : ChunkId} (hx : x ∈ i.listIds) :
    x ∉ c.flight ∧ c.vfs.tree.inodes.tally Inode.dataIds x = 0 := by
  have hone := h.once x
  have htally := OrdMap.tally_of_get? (g := Inode.listIds) (x := x) hi
  have hpos := List.count_pos_iff.mpr hx
  unfold Cfg.held at hone
  rw [refIds_tally] at hone
  refine ⟨fun hfl => ?_, by omega⟩
  have := List.count_pos_iff.mpr hfl
  omega

theorem Micro.listed {P : Permit} {f : FileId} {c c' : Cfg} (h : Micro P f c c') (hl : Ledger c)
    (hk : c.vfs.Listed) : c'.vfs.Listed := by
  have hkeys : c'.vfs.container.fileKey = c.vfs.container.fileKey :=
    funext fun _ => h.frame.fileKey
  cases h with
  | env e => exact hk.same rfl (Finset.Subset.refl _) hkeys (fun _ _ _ _ _ => rfl) id
  | sealed x => exact hk.same rfl (Finset.Subset.refl _) hkeys (fun _ _ _ _ _ => rfl) id
  | gen hg => exact hk.same rfl (Finset.Subset.refl _) hkeys (fun _ _ _ _ _ => rfl) id
  | take ht =>
      refine hk.same ?_ (Finset.Subset.refl _) hkeys (fun _ _ _ _ _ => rfl) id
      rcases allocChunkId_cases ht with ⟨-, ht⟩ | ⟨-, -, -, ht⟩ <;> exact ht ▸ rfl
  | store off slot written hid =>
      refine hk.same rfl (Finset.Subset.refl _) hkeys (fun g i hi x hx => ?_) id
      refine Function.update_of_ne ?_ _ _
      rintro rfl
      exact (hl.list_apart hi hx).1 hid
  | inPlace off slot written hown hid hp =>
      refine hk.same rfl (Finset.Subset.refl _) hkeys (fun g i hi x hx => ?_) id
      refine Function.update_of_ne ?_ _ _
      rintro rfl
      have hnone := (hl.list_apart hi hx).2
      rw [OrdMap.tally_of_get? (g := Inode.dataIds) hown] at hnone
      have hpos := List.count_pos_iff.mpr hid
      unfold Inode.dataIds at hnone
      omega
  | give ids hids => exact hk.same rfl (Finset.Subset.refl _) hkeys (fun _ _ _ _ _ => rfl) id
  | cache size hsize =>
      refine hk.congr (fun g i' hi' _ => ?_) (fun _ _ _ hg => hg) hkeys (fun _ _ _ _ _ => rfl) id
      have hi' : (OrdMap.adjust _ f _).get? g = some i' := hi'
      rw [OrdMap.get?_adjust] at hi'
      split at hi'
      · obtain ⟨i, hi, rfl⟩ := Option.map_eq_some_iff.mp hi'
        exact ⟨i, hi, rfl, .inr rfl⟩
      · exact ⟨i', hi', rfl, .inr rfl⟩
  | @drain L B s h i hi =>
      refine hk.congr (fun g i' hi' hne => ?_) (fun _ _ _ hg => hg) hkeys (fun _ _ _ _ _ => rfl) id
      have hi' : (OrdMap.adjust _ h _).get? g = some i' := hi'
      rw [OrdMap.get?_adjust] at hi'
      split at hi'
      · obtain ⟨j, -, rfl⟩ := Option.map_eq_some_iff.mp hi'
        exact absurd rfl hne
      · exact ⟨i', hi', rfl, .inr rfl⟩
  | @chain L L' B s h i refs hi hnone hids hformat hread =>
      have hnodup : (refs.map ChunkRef.id).Nodup := by
        refine List.nodup_iff_count_le_one.mpr fun x => ?_
        have hone := hl.once x
        have hx := hids x
        unfold Cfg.held at hone
        simp only at hone
        omega
      refine ⟨fun g i' hget hne => ?_, fun hf => absurd hf hformat⟩
      have hnew : (OrdMap.adjust s.tree.inodes h fun i => { i with externalListBlocks := refs }).get? g =
          some i' := hget
      by_cases heq : g = h
      · rw [heq, OrdMap.get?_adjust_self, hi] at hnew
        injection hnew with hnew
        rw [heq, ← hnew]
        exact .inr (hread hnodup)
      · rw [OrdMap.get?_adjust_of_ne heq] at hnew
        exact hk.chains g i' hnew hne
  | floor => exact hk.same rfl (Finset.Subset.refl _) hkeys (fun _ _ _ _ _ => rfl) id
  | @upgradeHeader L B s =>
      unfold Vfs.upgradeHeader
      split
      · exact hk.same rfl Finset.subset_union_left rfl (fun _ _ _ _ _ => rfl) (fun h => by cases h)
      · exact hk
  | @upgradeToV4 L B s =>
      unfold Vfs.upgradeToV4
      split
      · exact hk.same rfl Finset.subset_union_left rfl (fun _ _ _ _ _ => rfl) (fun h => by cases h)
      · exact hk
  | @publish L B s s' hb hp hprep =>
      have hpub := hp.published
      have hin : s'.tree.inodes = s.tree.inodes := by rw [hpub.tree]
      have hone : ∀ x, s.tree.inodes.tally Inode.refIds x ≤ 1 := by
        intro x
        have hone := hl.once x
        unfold Cfg.held at hone
        simp only at hone
        omega
      refine ⟨fun g i hi hne => .inr ?_, fun hf g i hi => ?_⟩
      · have hi : s'.tree.inodes.get? g = some i := hi
        rw [hin] at hi
        have hv2 : s.format ≠ .v2 := fun hf => hne (hk.inline hf g i hi)
        have hlinks : s.Links g i := (hk.chains g i hi hne).elim
          (fun hmark => hprep.renewed hv2 hone g i hi hmark hne) id
        unfold Vfs.Links at hlinks ⊢
        have hlist : s'.container.listFileKey g = s.container.listFileKey g := congrFun hkeys _
        show Chained s'.container.slots (s'.container.listFileKey g) g 0 _ _
        rw [hlist, hpub.container.slots]
        exact hlinks
      · have hi : s'.tree.inodes.get? g = some i := hi
        rw [hin] at hi
        have hf : s'.format = .v2 := hf
        rw [hpub.format] at hf
        exact hk.inline hf g i hi

theorem Path.listed {P : Permit} {f : FileId} {c c' : Cfg} (h : Path P f c c') (hl : Ledger c)
    (hk : c.vfs.Listed) : c'.vfs.Listed := by
  induction h with
  | refl => exact hk
  | tail hp hs ih => exact hs.listed (hl.path hp) ih

namespace Vfs

variable {s s' : Vfs}

/-- What is published lists the refs of the inodes. -/
theorem Listed.lists {L B : List ChunkId} (h : s.Listed) (hl : Ledger ⟨L, B, s⟩)
    (hprep : s.Prepared) {k : Commit} (hslots : k.slots = s.container.slots) {f : FileId} {i : Inode}
    (hi : s.tree.inodes.get? f = some i) : k.Lists s.container.fileKey f (s.rowOf i) i.chunks := by
  have hone : ∀ x, s.tree.inodes.tally Inode.refIds x ≤ 1 := by
    intro x
    have hone := hl.once x
    unfold Cfg.held at hone
    simp only at hone
    omega
  unfold rowOf
  split
  · rfl
  · next hv2 =>
      unfold Inode.onDisk
      split
      · next hneed =>
          have hne := hprep.spilled hv2 f i hi hneed
          have hlinks : s.Links f i := (h.chains f i hi hne).elim
            (fun hmark => hprep.renewed hv2 hone f i hi hmark hne) id
          obtain ⟨head, rest, hblocks⟩ := List.exists_cons_of_ne_nil hne
          unfold Links at hlinks
          unfold Commit.Lists Inode.toV3OnDisk
          rw [hblocks] at hlinks ⊢
          refine ⟨rfl, rfl, head :: rest, rfl, ?_⟩
          rw [hslots]
          exact hlinks
      · rfl

/-! ## At the end of a call -/

theorem Listed.replaced (h : s.Listed) {f : FileId} {chunks : List ChunkRef} {newReal : Nat}
    {freed : List ChunkId} : (s.replaced f chunks newReal freed).Listed := by
  refine h.congr (fun g i' hi' _ => ?_) (fun _ _ _ hg => Finset.mem_insert_of_mem hg) rfl
    (fun _ _ _ _ _ => rfl) id
  have hi' : (OrdMap.adjust _ f _).get? g = some i' := hi'
  rw [OrdMap.get?_adjust] at hi'
  split at hi'
  · next heq =>
      obtain ⟨i, hi, rfl⟩ := Option.map_eq_some_iff.mp hi'
      exact ⟨i, hi, rfl, .inl (heq ▸ Finset.mem_insert_self _ _)⟩
  · exact ⟨i', hi', rfl, .inr rfl⟩

theorem Listed.edit (h : s.Listed) (hd : DataEdit s s') : s'.Listed := by
  have hcontainer : s'.container = s.container := by rw [hd.rest]
  have hformat : s'.format = s.format := by rw [hd.rest]
  have hold : ∀ {g : FileId} {i' : Inode}, (s.tree.inodes.mapVals Inode.data).get? g = some i'.data →
      ∃ i, s.tree.inodes.get? g = some i ∧ i'.externalListBlocks = i.externalListBlocks ∧
        (g ∈ s'.chunksDirty ∨ i'.chunks = i.chunks) := by
    intro g i' hg
    rw [OrdMap.get?_mapVals] at hg
    obtain ⟨i, hi, hdata⟩ := Option.map_eq_some_iff.mp hg
    exact ⟨i, hi, congrArg FileData.externalListBlocks hdata.symm,
      .inr (congrArg FileData.chunks hdata.symm)⟩
  refine h.congr (fun g i' hi' hne => ?_) (fun g i' hi' hg => ?_) (by rw [hcontainer])
    (fun _ _ _ _ _ => by rw [hcontainer]) fun hf => hformat ▸ hf
  · have hget : (s'.tree.inodes.mapVals Inode.data).get? g = some i'.data := by
      rw [OrdMap.get?_mapVals, hi']
      rfl
    cases hd.change with
    | keep inodes pending =>
        rw [inodes] at hget
        exact hold hget
    | enter d fresh new inodes pending =>
        rw [inodes, OrdMap.get?_insert] at hget
        split at hget
        · injection hget with hget
          exact absurd ((congrArg FileData.externalListBlocks hget).symm.trans
            new.externalListBlocks) hne
        · exact hold hget
    | drop id old hold' inodes pending =>
        rw [inodes, OrdMap.get?_erase] at hget
        split at hget
        · cases hget
        · exact hold hget
  · refine (hd.marks g hg).resolve_right fun hnone => ?_
    rw [hnone] at hi'
    cases hi'

end Vfs

end Luksbox
