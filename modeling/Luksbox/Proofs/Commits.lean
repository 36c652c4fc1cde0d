import Luksbox.Proofs.ChunkLists
import Luksbox.Proofs.Failures

/-!
# What a commit refers to

A commit may come in the middle of a call: `alloc_slot` flushes when the vault
is full and enough slots are waiting. The tree it commits has the refs from
before the call, so it must find every slot under these refs, and a chunk that
the call has rewritten in its own slot is not there any more.

`Intact` says that every ref of a tree opens its slot. While a call runs the
refs of its broken chunks are the exception (`IntactBut`); a step that commits
when nothing is broken commits a tree that is intact, and at the end of the
call the new refs take the place of the broken ones.
-/

namespace Luksbox

open Lib Relation

/-! ## Refs that open their slots -/

/-- Every ref of the tree opens its slot, under the key of its file and for its
index and generation. -/
def DirectoryTree.Intact (t : DirectoryTree) (slots : ChunkId → Slot) (key : FileId → SubKey) :
    Prop :=
  ∀ g i idx r, t.inodes.get? g = some i → i.chunks[idx]? = some r →
    slots r.id (key g) (chunkAad g (idx % 2 ^ 32) r.generation) ≠ none

namespace Vfs

variable {s s' s'' : Vfs}

def Intact (s : Vfs) : Prop := s.tree.Intact s.container.slots s.container.fileKey

/-- The refs to the slots in `broken` are excepted. -/
def IntactBut (broken : List ChunkId) (s : Vfs) : Prop :=
  ∀ g i idx r, s.tree.inodes.get? g = some i → i.chunks[idx]? = some r → r.id ∉ broken →
    s.opens g idx r ≠ none

theorem intact_new (h : s.tree = DirectoryTree.new) : s.Intact := by
  intro g i idx r hi hr
  rw [h] at hi
  unfold DirectoryTree.new at hi
  rw [OrdMap.get?_insert] at hi
  split at hi
  · injection hi with hi
    rw [← hi] at hr
    cases hr
  · cases hi

theorem intactBut_nil : IntactBut [] s ↔ s.Intact :=
  ⟨fun h g i idx r hi hr => h g i idx r hi hr List.not_mem_nil,
    fun h g i idx r hi hr _ => h g i idx r hi hr⟩

/-- Every ref opens its slot, and the chains have the refs of their files. -/
structure Whole (s : Vfs) : Prop where
  intact : s.Intact
  listed : s.Listed

theorem whole_new (h : s.tree = DirectoryTree.new) : s.Whole := ⟨intact_new h, listed_new h⟩

/-- The keys are the same, and every commit since `s` is intact. -/
structure Commits (s s' : Vfs) : Prop where
  key : s'.container.fileKey = s.container.fileKey
  intact : ∀ k ∈ s'.container.history, k ∈ s.container.history ∨ k.Intact s.container.fileKey

theorem Commits.refl : Commits s s := ⟨rfl, fun _ hk => .inl hk⟩

theorem Commits.trans (h : Commits s s') (h' : Commits s' s'') : Commits s s'' := by
  refine ⟨h'.key.trans h.key, fun k hk => ?_⟩
  rcases h'.intact k hk with hk | hk
  · exact h.intact k hk
  · rw [h.key] at hk
    exact .inr hk

/-- No commit at all. -/
theorem Commits.of_none (hkey : s'.container.fileKey = s.container.fileKey)
    (hhist : s'.container.history = s.container.history) : Commits s s' :=
  ⟨hkey, fun k hk => .inl (by rw [← hhist]; exact hk)⟩

end Vfs

/-! ## Along a path -/

theorem Frame.fileKeys {s s' : Vfs} (h : Frame s s') :
    s'.container.fileKey = s.container.fileKey := funext fun _ => h.fileKey

/-- A slot that is neither in flight nor broken by the step. -/
theorem Micro.slot_kept {P : Permit} {f : FileId} {c c' : Cfg} (h : Micro P f c c') {x : ChunkId}
    (hx : x ∉ c.flight) (hb : x ∉ c'.broken) :
    x ∉ c.broken ∧ c'.vfs.container.slots x = c.vfs.container.slots x := by
  cases h with
  | store off slot written hid =>
      refine ⟨hb, Function.update_of_ne ?_ _ _⟩
      rintro rfl
      exact hx hid
  | inPlace off slot written hi hid hp =>
      refine ⟨fun hmem => hb (List.mem_cons_of_mem _ hmem), Function.update_of_ne ?_ _ _⟩
      rintro rfl
      exact hb List.mem_cons_self
  | upgradeHeader =>
      unfold Vfs.upgradeHeader
      split
      · exact ⟨hb, rfl⟩
      · exact ⟨hb, rfl⟩
  | upgradeToV4 =>
      unfold Vfs.upgradeToV4
      split
      · exact ⟨hb, rfl⟩
      · exact ⟨hb, rfl⟩
  | publish hbr hl => exact ⟨hb, congrFun hl.published.container.slots x⟩
  | _ => exact ⟨hb, rfl⟩

theorem Micro.intact {P : Permit} {f : FileId} {c c' : Cfg} (h : Micro P f c c') (hl : Ledger c)
    (hi : Vfs.IntactBut c.broken c.vfs) : Vfs.IntactBut c'.broken c'.vfs := by
  intro g i' idx r hi' hr hno
  have hframe := h.frame
  obtain ⟨i, hget, hbare⟩ := hframe.inode_back hi'
  rw [Inode.bare_chunks hbare] at hr
  have hmem : r.id ∈ i.dataIds := List.mem_map_of_mem (List.mem_of_getElem? hr)
  obtain ⟨hb, hslot⟩ := h.slot_kept (hl.not_flight hget hmem).2 hno
  unfold Vfs.opens
  rw [hslot, hframe.fileKey]
  exact hi g i idx r hget hr hb

theorem Leads.commits {L B : List ChunkId} {s s' : Vfs} (hl : Ledger ⟨L, B, s⟩) (hw : s.Whole)
    (hprep : s.Prepared) (h : Leads (Vfs.publishMetadata s.blobOf) s s') : Vfs.Commits s s' := by
  refine ⟨h.published.frame.fileKeys, fun k hk => ?_⟩
  rcases h.made with ⟨k₀, -, hb, hslots, hh⟩ | hh
  · rw [hh] at hk
    rcases List.mem_cons.mp hk with rfl | hk
    · refine .inr fun f row hrow => ?_
      rw [hb, Vfs.blobOf_rows, OrdMap.get?_mapVals] at hrow
      obtain ⟨i, hi, rfl⟩ := Option.map_eq_some_iff.mp hrow
      refine ⟨i.chunks, hw.listed.lists hl hprep hslots hi, fun idx r hr => ?_⟩
      rw [hslots]
      exact hw.intact f i idx r hi hr
    · exact .inl hk
  · rw [hh] at hk
    exact .inl hk

theorem Micro.commits {P : Permit} (hmid : ¬ P.midFlush) {f : FileId} {c c' : Cfg}
    (h : Micro P f c c') (hl : Ledger c) (hk : c.vfs.Listed)
    (hi : Vfs.IntactBut c.broken c.vfs) : Vfs.Commits c.vfs c'.vfs := by
  cases h with
  | publish hb hp hprep =>
      have hnil := hb.resolve_right hmid
      subst hnil
      exact hp.commits hl ⟨Vfs.intactBut_nil.mp hi, hk⟩ hprep
  | upgradeHeader =>
      unfold Vfs.upgradeHeader
      split
      · exact .of_none rfl rfl
      · exact .refl
  | upgradeToV4 =>
      unfold Vfs.upgradeToV4
      split
      · exact .of_none rfl rfl
      · exact .refl
  | _ => exact .of_none rfl rfl

/-- A call that never commits while a chunk is broken commits intact metadata. -/
theorem Path.commits {P : Permit} (hmid : ¬ P.midFlush) {f : FileId} {c c' : Cfg}
    (h : Path P f c c') (hl : Ledger c) (hk : c.vfs.Listed)
    (hi : Vfs.IntactBut c.broken c.vfs) :
    Vfs.IntactBut c'.broken c'.vfs ∧ Vfs.Commits c.vfs c'.vfs := by
  induction h with
  | refl => exact ⟨hi, .refl⟩
  | tail hp hs ih =>
      have hl' := hl.path hp
      have hk' := Path.listed hp hl hk
      exact ⟨hs.intact hl' ih.1, ih.2.trans (hs.commits hmid hl' hk' ih.1)⟩

/-- Only chunks of the file the call works on are broken. -/
def Cfg.BreaksOwn (f : FileId) (c : Cfg) : Prop :=
  ∀ x ∈ c.broken, ∃ i, c.vfs.tree.inodes.get? f = some i ∧ x ∈ i.dataIds

theorem Micro.breaksOwn {P : Permit} {f : FileId} {c c' : Cfg} (h : Micro P f c c')
    (hb : c.BreaksOwn f) : c'.BreaksOwn f := by
  intro x hx
  have hown : ∃ i, c.vfs.tree.inodes.get? f = some i ∧ x ∈ i.dataIds := by
    cases h with
    | inPlace off slot written hi hid hp =>
        rcases List.mem_cons.mp hx with rfl | hx
        · exact ⟨_, hi, hid⟩
        · exact hb x hx
    | _ => exact hb x hx
  obtain ⟨i, hi, hmem⟩ := hown
  obtain ⟨i', hi', hbare⟩ := h.frame.inode hi
  refine ⟨i', hi', ?_⟩
  unfold Inode.dataIds at hmem ⊢
  rw [Inode.bare_chunks hbare]
  exact hmem

theorem Path.breaksOwn {P : Permit} {f : FileId} {c c' : Cfg} (h : Path P f c c')
    (hb : c.BreaksOwn f) : c'.BreaksOwn f := by
  induction h with
  | refl => exact hb
  | tail _ hs ih => exact hs.breaksOwn ih

/-- A slot is a chunk of one file. -/
theorem Ledger.one_file {c : Cfg} (h : Ledger c) {f g : FileId} {i j : Inode} {x : ChunkId}
    (hi : c.vfs.tree.inodes.get? f = some i) (hx : x ∈ i.dataIds)
    (hj : c.vfs.tree.inodes.get? g = some j) (hy : x ∈ j.dataIds) : g = f := by
  by_contra hne
  have hone := h.once x
  have hrest : (c.vfs.tree.inodes.erase f).get? g = some j := by
    rw [OrdMap.get?_erase_of_ne hne, hj]
  unfold Cfg.held at hone
  rw [refIds_tally, OrdMap.tally_of_get? hi, OrdMap.tally_of_get? hrest] at hone
  have hposi := List.count_pos_iff.mpr hx
  have hposj := List.count_pos_iff.mpr hy
  omega

/-! ## The end of a call -/

/-- The plan of a call that rewrites no chunk. -/
def Plan.whole : Plan where
  permit := ⟨fun _ => False, False⟩
  flushes := False
  early := False
  sooner := False
  copies := fun _ => False
  covers := fun _ => False
  grows := fun _ => False

namespace Vfs

variable {s s' : Vfs}

/-- With the call's refs in the inode, all refs open their slots. -/
theorem replaced_intact {p : Plan} {f : FileId} {c₀ c : Cfg} {base refs : List ChunkRef}
    {retired : List ChunkId} {pts : Nat → Option Chunk} {i : Inode} {newReal : Nat}
    {freed : List ChunkId} (hb : Base f c₀ base) (hview : View p f c₀ base c refs retired pts)
    (hi : c₀.vfs.tree.inodes.get? f = some i)
    (hbase : ∀ (idx : Nat) (r : ChunkRef), base[idx]? = some r → i.chunks[idx]? = some r)
    (h₀ : c₀.vfs.Intact)
    (h : IntactBut c.broken c.vfs) : (c.vfs.replaced f refs newReal freed).Intact := by
  intro g j idx r hj hr
  have hl := hview.ledger hb
  by_cases hgf : g = f
  · subst hgf
    have hr : refs[idx]? = some r := by
      have hj : (OrdMap.adjust _ g _).get? g = some j := hj
      rw [OrdMap.get?_adjust_self] at hj
      obtain ⟨j₀, -, rfl⟩ := Option.map_eq_some_iff.mp hj
      exact hr
    show c.vfs.opens g idx r ≠ none
    rw [hview.opens_eq hr]
    have hat := hview.content idx r hr
    unfold ViewAt at hat
    unfold contentAt
    split at hat
    · rw [hat.1]
      exact h₀ g i idx r hi (hbase idx r hat.1)
    · exact Option.some_ne_none _
  · have hj : c.vfs.tree.inodes.get? g = some j := by
      have hj : (OrdMap.adjust _ f _).get? g = some j := hj
      rw [OrdMap.get?_adjust_of_ne hgf] at hj
      exact hj
    refine h g j idx r hj hr fun hbroken => hgf ?_
    have hown : c.BreaksOwn f := Path.breaksOwn hview.path (by
      intro x hx
      rw [hb.broken] at hx
      cases hx)
    obtain ⟨i', hi', hmem⟩ := hown r.id hbroken
    exact hl.one_file hi' hmem hj (List.mem_map_of_mem (List.mem_of_getElem? hr))

theorem written_intact {p : Plan} (hmid : ¬ p.permit.midFlush) {f : FileId} {offset : Nat}
    {buf : List UInt8} {c₀ : Cfg} {oldReal : Nat} {i : Inode} {count : Nat} {c : Cfg}
    {refs : List ChunkRef} {retired : List ChunkId} (hl : Ledger ⟨[], [], s⟩) (h : s.Whole)
    (hw : Written p f s offset buf c₀ oldReal i count c refs retired s') :
    s'.Whole ∧ Commits s s' := by
  obtain ⟨pts, hview, -⟩ := hw.sees
  have hbase := @Begun.base p.permit f s c₀ oldReal i.chunks.length i hw.begun hl hw.inode
  rw [List.take_length] at hbase
  have hk₀ := Path.listed hw.begun.path hl h.listed
  have hk₁ := Path.listed hview.path hbase.ledger hk₀
  obtain ⟨h₀, hc₀⟩ := Path.commits hmid hw.begun.path hl h.listed (intactBut_nil.mpr h.intact)
  obtain ⟨h₁, hc₁⟩ := Path.commits hmid hview.path hbase.ledger hk₀ h₀
  rw [hbase.broken] at h₀
  rw [hw.final]
  exact ⟨⟨replaced_intact hbase hview hw.inode (fun _ _ hr => hr) (intactBut_nil.mp h₀) h₁,
    hk₁.replaced⟩, (hc₀.trans hc₁).trans (.of_none rfl rfl)⟩

theorem truncated_intact {p : Plan} (hmid : ¬ p.permit.midFlush) {f : FileId} {newSize : Nat}
    {c₀ : Cfg} {oldReal : Nat} {i : Inode} {count : Nat} {c : Cfg} {refs : List ChunkRef}
    {retired : List ChunkId} (hl : Ledger ⟨[], [], s⟩) (h : s.Whole)
    (hw : Truncated p f s newSize c₀ oldReal i count c refs retired s') :
    s'.Whole ∧ Commits s s' := by
  obtain ⟨pts, hview, -⟩ := hw.sees
  have hbase := @Begun.base p.permit f s c₀ oldReal count i hw.begun hl hw.inode
  have hk₀ := Path.listed hw.begun.path hl h.listed
  have hk₁ := Path.listed hview.path hbase.ledger hk₀
  obtain ⟨h₀, hc₀⟩ := Path.commits hmid hw.begun.path hl h.listed (intactBut_nil.mpr h.intact)
  obtain ⟨h₁, hc₁⟩ := Path.commits hmid hview.path hbase.ledger hk₀ h₀
  rw [hbase.broken] at h₀
  rw [hw.final]
  refine ⟨⟨replaced_intact hbase hview hw.inode (fun idx r hr => ?_) (intactBut_nil.mp h₀) h₁,
    hk₁.replaced⟩, (hc₀.trans hc₁).trans (.of_none rfl rfl)⟩
  rw [List.getElem?_take] at hr
  split at hr
  · exact hr
  · cases hr

theorem edit_intact (hd : DataEdit s s') (h : s.Intact) : s'.Intact := by
  have hcontainer : s'.container = s.container := by rw [hd.rest]
  unfold Intact
  rw [hcontainer]
  intro g i idx r hi hr
  have hget : (s'.tree.inodes.mapVals Inode.data).get? g = some i.data := by
    rw [OrdMap.get?_mapVals, hi]
    rfl
  -- an inode that was there before, or one without chunks
  have hold : (s.tree.inodes.mapVals Inode.data).get? g = some i.data → _ ≠ none := fun hg => by
    rw [OrdMap.get?_mapVals] at hg
    obtain ⟨j, hj, hdata⟩ := Option.map_eq_some_iff.mp hg
    have hchunks : j.chunks = i.chunks := congrArg FileData.chunks hdata
    exact h g j idx r hj (by rw [hchunks]; exact hr)
  cases hd.change with
  | keep inodes pending =>
      rw [inodes] at hget
      exact hold hget
  | enter d fresh new inodes pending =>
      rw [inodes, OrdMap.get?_insert] at hget
      split at hget
      · injection hget with hget
        have hnil : i.chunks = [] := (congrArg FileData.chunks hget).symm.trans new.chunks
        rw [hnil] at hr
        cases hr
      · exact hold hget
  | drop id old hold' inodes pending =>
      rw [inodes, OrdMap.get?_erase] at hget
      split at hget
      · cases hget
      · exact hold hget

theorem edit_whole (hd : DataEdit s s') (h : s.Whole) : s'.Whole ∧ Commits s s' := by
  have hcontainer : s'.container = s.container := by rw [hd.rest]
  exact ⟨⟨edit_intact hd h.intact, h.listed.edit hd⟩,
    .of_none (by rw [hcontainer]) (by rw [hcontainer])⟩

/-- Nothing is broken where nothing is rewritten in place. -/
theorem along_intact (hl : Ledger ⟨[], [], s⟩) (h : s.Whole) (ha : Along Plan.whole.permit s s') :
    s'.Whole ∧ Commits s s' := by
  obtain ⟨f, c, hp, rfl⟩ := ha
  obtain ⟨hc, hcommits⟩ := Path.commits not_false hp hl h.listed (intactBut_nil.mpr h.intact)
  have hnone : ∀ x ∈ c.broken, False := Path.broken_granted hp (by
    intro x hx
    cases hx)
  rw [List.eq_nil_iff_forall_not_mem.mpr hnone] at hc
  exact ⟨⟨intactBut_nil.mp hc, Path.listed hp hl h.listed⟩, hcommits⟩

theorem moves_intact (ho : Owned s) (h : s.Whole) (hm : Moves Plan.whole s s') :
    s'.Whole ∧ Commits s s' := by
  cases hm with
  | edit hd ht => exact edit_whole hd h
  | along ha => exact along_intact ho.ledger h ha
  | write hw => exact written_intact not_false ho.ledger h hw
  | truncate hw => exact truncated_intact not_false ho.ledger h hw
  | settings m d k heq hd =>
      rw [heq]
      exact ⟨⟨h.intact, h.listed.same rfl (Finset.Subset.refl _) rfl (fun _ _ _ _ _ => rfl) id⟩,
        .of_none rfl rfl⟩

end Vfs

end Luksbox
