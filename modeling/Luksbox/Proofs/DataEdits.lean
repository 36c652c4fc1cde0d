import Luksbox.Proofs.Ledger
import Luksbox.Proofs.NamespaceRuns

/-!
# What directory operations do to data

Seen from the data path a directory operation does one of three things: it
touches no inode's data at all, it enters an inode that has none, or it drops
an inode and leaves its slots to the next flush. Every directory operation is
put into this form once, from its specification; what the data path needs of
them is then proved from the three cases.
-/

namespace Luksbox

open Lib Relation

/-- The part of an inode the data path reads. -/
structure FileData where
  kind : InodeKind
  size : Nat
  chunks : List ChunkRef
  cachedRealSize : Option Nat
  externalListBlocks : List ChunkRef

def Inode.data (i : Inode) : FileData :=
  ⟨i.kind, i.size, i.chunks, i.cachedRealSize, i.externalListBlocks⟩

/-- An inode that has no data. -/
structure FileData.IsNew (d : FileData) : Prop where
  chunks : d.chunks = []
  cachedRealSize : d.cachedRealSize = none
  externalListBlocks : d.externalListBlocks = []
  size : d.kind = .file → d.size = 0

/-- The three cases. -/
inductive DataChange (s s' : Vfs) : Prop where
  | keep (inodes : s'.tree.inodes.mapVals Inode.data = s.tree.inodes.mapVals Inode.data)
      (pending : s'.pendingFree = s.pendingFree)
  | enter (d : FileData) (fresh : s.tree.inodes.get? s.tree.nextFileId = none) (new : d.IsNew)
      (inodes : s'.tree.inodes.mapVals Inode.data =
        (s.tree.inodes.mapVals Inode.data).insert s.tree.nextFileId d)
      (pending : s'.pendingFree = s.pendingFree)
  | drop (id : FileId) (i : Inode) (old : s.tree.inodes.get? id = some i)
      (inodes : s'.tree.inodes.mapVals Inode.data = (s.tree.inodes.mapVals Inode.data).erase id)
      (pending : s'.pendingFree = s.pendingFree ++ i.refIds ∨
        (i.kind = .directory ∧ s'.pendingFree = s.pendingFree))

/-- A directory operation that returned. -/
structure DataEdit (s s' : Vfs) : Prop where
  rest : s' = { s with
    tree := { s.tree with inodes := s'.tree.inodes, nextFileId := s'.tree.nextFileId }
    dirty := s'.dirty
    chunksDirty := s'.chunksDirty
    pendingFree := s'.pendingFree }
  nextFileId : s.tree.nextFileId ≤ s'.tree.nextFileId
  dirty : s' = s ∨ s'.dirty = true
  marks : ∀ g ∈ s.chunksDirty, g ∈ s'.chunksDirty ∨ s'.tree.inodes.get? g = none
  change : DataChange s s'

/-! ## The edits of entries -/

section Edits

variable {m : Inodes} {p q id : FileId} {n k : String}

theorem data_putEntry : (m.putEntry p n id).mapVals Inode.data = m.mapVals Inode.data :=
  OrdMap.mapVals_adjust_of_eq fun _ _ => rfl

theorem data_cutEntry : (m.cutEntry p n).mapVals Inode.data = m.mapVals Inode.data :=
  OrdMap.mapVals_adjust_of_eq fun _ _ => rfl

theorem data_relink {f : Nat → Nat} : (m.relink id f).mapVals Inode.data = m.mapVals Inode.data :=
  OrdMap.mapVals_adjust_of_eq fun _ _ => rfl

theorem data_reparent : (m.reparent id p).mapVals Inode.data = m.mapVals Inode.data :=
  OrdMap.mapVals_adjust_of_eq fun _ _ => rfl

theorem data_moved : (Vfs.moved m p n q k id).mapVals Inode.data = m.mapVals Inode.data := by
  unfold Vfs.moved
  split
  · rw [data_putEntry, data_cutEntry]
  · rw [data_reparent, data_putEntry, data_cutEntry]

theorem data_adopted {t : DirectoryTree} :
    (Vfs.adopted t p id).mapVals Inode.data = t.inodes.mapVals Inode.data := by
  unfold Vfs.adopted
  split
  · split
    · exact data_reparent
    · rfl
  · rfl

end Edits

/-! ## The operations -/

namespace DataEdit

variable {s s' : Vfs}

theorem refl : DataEdit s s :=
  ⟨rfl, le_refl _, Or.inl rfl, fun _ hg => Or.inl hg, .keep rfl rfl⟩

/-- An edit of entries, links and parents alone. -/
theorem edited {m : Inodes} (h : m.mapVals Inode.data = s.tree.inodes.mapVals Inode.data) :
    DataEdit s (s.edited m) :=
  ⟨rfl, le_refl _, Or.inr rfl, fun _ hg => Or.inl hg, .keep h rfl⟩

theorem entered (h : TreeInv s.tree) {parent id : FileId} {name : String}
    {node : FileId → Nat → Inode} (hs : Vfs.Entered s parent name node id s')
    (hnew : ∀ n now, (node n now).data.IsNew) : DataEdit s s' := by
  obtain ⟨-, hs', hmarks, -⟩ := hs
  have hfresh : s.tree.inodes.get? s.tree.nextFileId = none := by
    cases hg : s.tree.inodes.get? s.tree.nextFileId with
    | none => rfl
    | some i => exact absurd (h.fresh _ i hg) (Nat.lt_irrefl _)
  refine ⟨?_, ?_, Or.inr ?_, ?_, ?_⟩
  · rw [hs']
    rfl
  · rw [hs']
    exact Nat.le_succ _
  · rw [hs']
    rfl
  · intro g hg
    rcases hmarks with hm | hm
    · exact Or.inl (hm ▸ hg)
    · exact Or.inl (hm ▸ Finset.mem_insert_of_mem hg)
  · refine .enter _ hfresh (hnew s.tree.nextFileId s.container.env.nowNs) ?_ ?_
    · rw [hs']
      show (Inodes.putEntry _ _ _ _).mapVals Inode.data = _
      rw [data_putEntry, OrdMap.mapVals_insert]
    · rw [hs']
      rfl

/-- The inode is gone, and its slots wait for the next flush. -/
theorem freed {id : FileId} {i : Inode} (hi : s.tree.inodes.get? id = some i) {m : Inodes}
    (hm : m.mapVals Inode.data = (s.tree.inodes.mapVals Inode.data).erase id) :
    DataEdit s ((s.freed id i).edited m) := by
  refine ⟨rfl, le_refl _, Or.inr rfl, ?_, .drop id i hi hm (Or.inl ?_)⟩
  · intro g hg
    by_cases hgid : g = id
    · have hnone : (m.get? g).map Inode.data = none := by
        rw [← OrdMap.get?_mapVals, hm, hgid, OrdMap.get?_erase_self]
      exact Or.inr (Option.map_eq_none_iff.mp hnone)
    · exact Or.inl (Finset.mem_erase.mpr ⟨hgid, hg⟩)
  · show s.pendingFree ++ i.chunks.map ChunkRef.id ++ i.externalListBlocks.map ChunkRef.id = _
    rw [List.append_assoc]
    rfl

theorem unlinked {parent : FileId} {name : String} (hs : Vfs.Unlinked s parent name s') :
    DataEdit s s' := by
  obtain ⟨dir, id, target, -, -, -, htarget, -, hcase⟩ := hs
  rcases hcase with ⟨-, rfl⟩ | ⟨-, rfl⟩
  · have hm : (OrdMap.erase (s.tree.inodes.cutEntry parent name) id).mapVals Inode.data =
        (s.tree.inodes.mapVals Inode.data).erase id := by
      rw [OrdMap.mapVals_erase, data_cutEntry]
    exact DataEdit.freed htarget hm
  · refine DataEdit.edited ?_
    rw [data_adopted, data_relink, data_cutEntry]

theorem rmdired {parent : FileId} {name : String} (hs : Vfs.Rmdired s parent name s') :
    DataEdit s s' := by
  obtain ⟨dir, id, target, -, -, -, htarget, hkind, -, rfl⟩ := hs
  refine ⟨rfl, le_refl _, Or.inr rfl, fun _ hg => Or.inl hg,
    .drop id target htarget ?_ (Or.inr ⟨hkind, rfl⟩)⟩
  show (OrdMap.erase (s.tree.inodes.cutEntry parent name) id).mapVals Inode.data = _
  rw [OrdMap.mapVals_erase, data_cutEntry]

theorem renamed {p q : FileId} {n k : String} (hs : Vfs.Renamed s p n q k s') :
    DataEdit s s' := by
  rcases hs with ⟨rfl, -⟩ | ⟨dir, id, -, -, -, -, hcase⟩
  · exact DataEdit.refl
  rcases hcase with ⟨-, rfl⟩ | ⟨dst, target, -, -, hdst, -, hcase⟩
  · exact DataEdit.edited data_moved
  rcases hcase with ⟨-, rfl⟩ | ⟨-, rfl⟩
  · refine DataEdit.freed hdst ?_
    rw [data_moved, OrdMap.mapVals_erase]
  · refine DataEdit.edited ?_
    rw [data_moved, data_relink]

theorem attrSet {id : FileId} {f : Inode → Inode} (hs : Vfs.AttrSet s id f s')
    (hf : ∀ i, (f i).data = i.data) : DataEdit s s' := by
  obtain ⟨i, hi, rfl⟩ := hs
  exact DataEdit.edited (OrdMap.mapVals_adjust_of_eq fun i _ => hf i)

end DataEdit

/-- Every directory operation is such an edit. -/
theorem Vfs.Edited.dataEdit {s s' : Vfs} (h : TreeInv s.tree) {op : Op} (hs : Vfs.Edited s op s') :
    DataEdit s s' := by
  cases op with
  | mkdir parent name =>
      obtain ⟨id, hs⟩ := hs
      exact DataEdit.entered h hs fun _ _ => ⟨rfl, rfl, rfl, nofun⟩
  | create parent name mode =>
      obtain ⟨id, hs⟩ := hs
      exact DataEdit.entered h hs fun _ _ => ⟨rfl, rfl, rfl, fun _ => rfl⟩
  | symlink parent name target =>
      obtain ⟨id, hs⟩ := hs
      exact DataEdit.entered h hs fun _ _ => ⟨rfl, rfl, rfl, nofun⟩
  | link targetId newParent newName =>
      obtain ⟨target, dir, -, -, -, -, -, -, rfl⟩ := hs
      exact DataEdit.edited (by rw [data_relink, data_putEntry])
  | unlink parent name => exact DataEdit.unlinked hs
  | rmdir parent name => exact DataEdit.rmdired hs
  | rename p n q k => exact DataEdit.renamed hs
  | chmod id mode =>
      have hs : Vfs.AttrSet s id _ s' := hs
      exact DataEdit.attrSet hs fun _ => rfl
  | setMtime id mtimeNs =>
      have hs : Vfs.AttrSet s id _ s' := hs
      exact DataEdit.attrSet hs fun _ => rfl
  | _ =>
      have hs : s' = s := hs
      rw [hs]
      exact DataEdit.refl

/-! ## Slots -/

def FileData.refIds (d : FileData) : List ChunkId :=
  d.chunks.map ChunkRef.id ++ d.externalListBlocks.map ChunkRef.id

theorem tally_data {m : Inodes} {x : ChunkId} :
    m.tally Inode.refIds x = (m.mapVals Inode.data).tally FileData.refIds x := by
  unfold OrdMap.tally
  rw [OrdMap.values_mapVals, List.flatMap_map]
  rfl

/-- No directory operation puts a slot into a second place. -/
theorem DataEdit.ledger {s s' : Vfs} (h : DataEdit s s') (hl : Ledger ⟨[], [], s⟩) :
    Ledger ⟨[], [], s'⟩ := by
  have hfree : s'.tree.freeChunks = s.tree.freeChunks := by rw [h.rest]
  have hnext : s'.tree.nextChunkId = s.tree.nextChunkId := by rw [h.rest]
  refine hl.of_le (fun x => ?_) (le_of_eq hnext.symm)
  unfold Cfg.held
  simp only [hfree, tally_data]
  cases h.change with
  | keep inodes pending => rw [inodes, pending]
  | enter d fresh new inodes pending =>
      have hnone : (s.tree.inodes.mapVals Inode.data).get? s.tree.nextFileId = none := by
        rw [OrdMap.get?_mapVals, fresh]
        rfl
      have hnil : d.refIds = [] := by
        unfold FileData.refIds
        rw [new.chunks, new.externalListBlocks]
        rfl
      rw [inodes, pending, OrdMap.tally_insert_of_none hnone, hnil, List.count_nil]
      omega
  | drop id i old inodes pending =>
      have hget : (s.tree.inodes.mapVals Inode.data).get? id = some i.data := by
        rw [OrdMap.get?_mapVals, old]
        rfl
      have htally := OrdMap.tally_of_get? (g := FileData.refIds) (x := x) hget
      have hids : i.data.refIds = i.refIds := rfl
      rw [hids] at htally
      rw [inodes]
      rcases pending with hp | ⟨-, hp⟩
      · rw [hp, List.count_append]
        omega
      · rw [hp]
        omega

end Luksbox
