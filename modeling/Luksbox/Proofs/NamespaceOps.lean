import Luksbox.Proofs.Namespace

/-!
# What each directory operation does

One specification for each operation, under the invariant: it fails and the
state is what it was, or it returns and the state is the old one with the edits
of `Proofs/Entries.lean` applied. No operation panics. Everything else that is
proved about these operations is read off these equations.
-/

namespace Luksbox

open Lib Relation

/-- The namespace invariant of a tree, with the counter for new ids. -/
structure TreeInv (t : DirectoryTree) : Prop where
  ns : NsInv t.inodes
  fresh : ∀ id i, t.inodes.get? id = some i → id < t.nextFileId

namespace Vfs

variable {s : Vfs}

/-- A refused call: an error, and nothing has changed. -/
def Refused (s : Vfs) (e : Failure) (s' : Vfs) : Prop := s' = s ∧ e ≠ .panic

theorem refused_err {e : Error} : Refused s (.err e) s := ⟨rfl, nofun⟩

/-- The state with another inode map, marked dirty. -/
def edited (s : Vfs) (inodes : Inodes) : Vfs :=
  { s with tree := { s.tree with inodes := inodes }, dirty := true }

theorem validateName_ne_panic {name : String} {e : Failure}
    (h : validateName name = .error e) : e ≠ .panic := by
  unfold validateName at h
  split at h
  · injection h with h
    subst h
    exact nofun
  · cases h

theorem validateNewName_ne_panic {name : String} {e : Failure}
    (h : validateNewName name = .error e) : e ≠ .panic := by
  unfold validateNewName at h
  cases hv : validateName name with
  | error e' =>
      rw [hv] at h
      injection h with h
      exact h ▸ validateName_ne_panic hv
  | ok u =>
      rw [hv] at h
      simp only [bind, Except.bind] at h
      split at h
      · injection h with h
        subst h
        exact nofun
      · cases h

/-! ## New entries -/

/-- The state after a new inode `node` was entered under `parent`. -/
def entered (s : Vfs) (parent : FileId) (name : String) (node : FileId → Nat → Inode) : Vfs :=
  { s with
    tree := { s.tree with
      nextFileId := s.tree.nextFileId + 1
      inodes := Inodes.putEntry (s.tree.inodes.insert s.tree.nextFileId
        (node s.tree.nextFileId s.container.env.nowNs)) parent name s.tree.nextFileId }
    dirty := true }

theorem newEntry_spec (h : TreeInv s.tree) {parent : FileId} {name : String}
    {node : FileId → Nat → Inode} :
    wp (newEntry parent name node)
      (fun id s' => id = s.tree.nextFileId ∧ s' = s.entered parent name node ∧
        ∃ dir, s.tree.inodes.get? parent = some dir ∧ dir.kind = .directory ∧
          dir.children.get? name = none)
      (Refused s) s := by
  unfold newEntry
  simp only [wp_bind, wp_requireDir, wp_ite, wp_throw]
  refine ⟨fun dir hdir => ⟨fun _ => refused_err, fun hkind => ⟨fun _ => refused_err, ?_⟩⟩,
    fun _ => refused_err⟩
  intro hname
  have hname : dir.children.get? name = none := by
    rw [← OrdMap.contains_eq_false_iff]
    simpa using hname
  unfold allocFileId DirectoryTree.allocFileId
  rw [wp_alloc]
  refine ⟨fun id tree halloc => ?_, fun _ => refused_err⟩
  split at halloc
  · cases halloc
  · simp only [Option.some.injEq, Prod.mk.injEq] at halloc
    obtain ⟨rfl, rfl⟩ := halloc
    simp only [wp_bind, wp_nowNs, wp_modify, wp_updateInode, wp_markDirty, wp_pure]
    refine ⟨fun i _ => ⟨trivial, rfl, dir, hdir, hkind, hname⟩, fun hnone => ?_⟩
    have hne : parent ≠ s.tree.nextFileId := Nat.ne_of_lt (h.fresh parent dir hdir)
    rw [OrdMap.get?_insert_of_ne hne, hdir] at hnone
    cases hnone

/-- What the inodes made by `mkdir`, `create` and `symlink` have in common. -/
structure IsNewNode (node : FileId → Nat → Inode) (parent : FileId) : Prop where
  id : ∀ n now, (node n now).id = n
  parent : ∀ n now, (node n now).parent = parent
  children : ∀ n now, (node n now).children = OrdMap.empty
  linkCount : ∀ n now, (node n now).linkCount = 1
  chunks : ∀ n now, (node n now).chunks = []
  listBlocks : ∀ n now, (node n now).externalListBlocks = []

/-- A successful `mkdir`, `create` or `symlink`, up to `chunksDirty`. -/
def Entered (s : Vfs) (parent : FileId) (name : String) (node : FileId → Nat → Inode)
    (id : FileId) (s' : Vfs) : Prop :=
  id = s.tree.nextFileId ∧ s' = { s.entered parent name node with chunksDirty := s'.chunksDirty } ∧
    (s'.chunksDirty = s.chunksDirty ∨ s'.chunksDirty = insert id s.chunksDirty) ∧
    IsNewNode node parent ∧ s.toleratedInodes = [] ∧ validateNewName name = .ok () ∧
    ∃ dir, s.tree.inodes.get? parent = some dir ∧ dir.kind = .directory ∧
      dir.children.get? name = none

theorem mkdir_spec (h : TreeInv s.tree) {parent : FileId} {name : String} :
    wp (mkdir parent name) (Entered s parent name (newDirectory parent)) (Refused s) s := by
  unfold mkdir
  simp only [wp_bind, wp_ensureWritable, wp_fromExcept]
  refine ⟨fun _ => refused_err, fun htol => ⟨fun _ hname => ?_,
    fun e he => ⟨rfl, validateNewName_ne_panic he⟩⟩⟩
  refine wp_mono (newEntry_spec h) ?_ fun _ _ hE => hE
  rintro id s' ⟨hid, rfl, hdir⟩
  exact ⟨hid, rfl, Or.inl rfl, ⟨fun _ _ => rfl, fun _ _ => rfl, fun _ _ => rfl, fun _ _ => rfl,
    fun _ _ => rfl, fun _ _ => rfl⟩, htol, hname, hdir⟩

theorem createWithMode_spec (h : TreeInv s.tree) {parent : FileId} {name : String} {mode : Nat} :
    wp (createWithMode parent name mode) (Entered s parent name (newFile parent mode))
      (Refused s) s := by
  unfold createWithMode
  simp only [wp_bind, wp_ensureWritable, wp_fromExcept]
  refine ⟨fun _ => refused_err, fun htol => ⟨fun _ hname => ?_,
    fun e he => ⟨rfl, validateNewName_ne_panic he⟩⟩⟩
  refine wp_mono (newEntry_spec h) ?_ fun _ _ hE => hE
  rintro id s' ⟨hid, rfl, hdir⟩
  exact ⟨hid, rfl, Or.inr rfl, ⟨fun _ _ => rfl, fun _ _ => rfl, fun _ _ => rfl, fun _ _ => rfl,
    fun _ _ => rfl, fun _ _ => rfl⟩, htol, hname, hdir⟩

theorem symlink_spec (h : TreeInv s.tree) {parent : FileId} {name target : String} :
    wp (symlink parent name target) (Entered s parent name (newSymlink parent target))
      (Refused s) s := by
  unfold symlink
  simp only [wp_bind, wp_ensureWritable, wp_fromExcept, wp_ite, wp_throw]
  refine ⟨fun _ => refused_err, fun htol => ⟨fun _ hname => ⟨fun _ => refused_err, fun _ => ?_⟩,
    fun e he => ⟨rfl, validateNewName_ne_panic he⟩⟩⟩
  refine wp_mono (newEntry_spec h) ?_ fun _ _ hE => hE
  rintro id s' ⟨hid, rfl, hdir⟩
  exact ⟨hid, rfl, Or.inl rfl, ⟨fun _ _ => rfl, fun _ _ => rfl, fun _ _ => rfl, fun _ _ => rfl,
    fun _ _ => rfl, fun _ _ => rfl⟩, htol, hname, hdir⟩

/-! ## Links -/

/-- A successful `link`. -/
def Linked (s : Vfs) (targetId newParent : FileId) (newName : String) (s' : Vfs) : Prop :=
  ∃ target dir, s.tree.inodes.get? targetId = some target ∧ target.kind = .file ∧
    target.linkCount < u32Max ∧ s.tree.inodes.get? newParent = some dir ∧
    dir.kind = .directory ∧ dir.children.get? newName = none ∧
    s' = s.edited ((s.tree.inodes.putEntry newParent newName targetId).relink targetId
      fun n => min (n + 1) u32Max)

theorem link_spec {targetId newParent : FileId} {newName : String} :
    wp (link targetId newParent newName) (fun _ => Linked s targetId newParent newName)
      (Refused s) s := by
  unfold link
  simp only [wp_bind, wp_ensureWritable, wp_fromExcept, wp_inodeOr]
  refine ⟨fun _ => refused_err, fun _ => ⟨fun _ _ => ⟨fun target htarget => ?_, fun _ => refused_err⟩,
    fun e he => ⟨rfl, validateNewName_ne_panic he⟩⟩⟩
  cases hkind : target.kind with
  | directory => exact refused_err
  | symlink => exact refused_err
  | file =>
      simp only [wp_bind, wp_ite, wp_throw, wp_requireDir, wp_updateInode, wp_markDirty]
      refine ⟨fun _ => refused_err, fun hlt => ⟨fun dir hdir =>
        ⟨fun _ => refused_err, fun hdk => ⟨fun _ => refused_err, fun hname => ?_⟩⟩,
        fun _ => refused_err⟩⟩
      have hname : dir.children.get? newName = none := by
        rw [← OrdMap.contains_eq_false_iff]
        simpa using hname
      refine ⟨fun i _ => ⟨fun j _ => ?_, fun hnone => ?_⟩, fun hnone => ?_⟩
      · exact ⟨target, dir, htarget, hkind, by omega, hdir, hdk, hname, rfl⟩
      · -- the target is still there after the entry went in
        simp only [mapInode, OrdMap.get?_adjust, htarget] at hnone
        split at hnone
        · cases hnone
        · cases hnone
      · rw [hdir] at hnone
        cases hnone

/-! ## Removals -/

/-- The state after the inode's slots were freed and the inode dropped. -/
def freed (s : Vfs) (id : FileId) (inode : Inode) : Vfs :=
  { s with
    tree := { s.tree with inodes := s.tree.inodes.erase id }
    chunksDirty := s.chunksDirty.erase id
    pendingFree := s.pendingFree ++ inode.chunks.map ChunkRef.id
      ++ inode.externalListBlocks.map ChunkRef.id }

theorem freeInode_spec {id : FileId} {i : Inode} {Q : Unit → Vfs → Prop}
    {E : Failure → Vfs → Prop} (hi : s.tree.inodes.get? id = some i) (hQ : Q () (s.freed id i)) :
    wp (freeInode id) Q E s := by
  unfold freeInode
  simp only [wp_bind, wp_inodeOr, wp_pushPending, wp_modify]
  refine ⟨fun j hj => ?_, fun hnone => ?_⟩
  · rw [hi] at hj
    injection hj with hj
    subst hj
    exact hQ
  · rw [hi] at hnone
    cases hnone

theorem dropLink_spec {id : FileId} {i : Inode} {Q : Bool → Vfs → Prop}
    {E : Failure → Vfs → Prop} (hi : s.tree.inodes.get? id = some i)
    (hQ : Q (i.linkCount - 1 == 0)
      (s.mapInode id fun i => { i with linkCount := i.linkCount - 1 })) :
    wp (dropLink id) Q E s := by
  unfold dropLink
  have hget : (s.mapInode id fun i => { i with linkCount := i.linkCount - 1 }).tree.inodes.get? id =
      some { i with linkCount := i.linkCount - 1 } := by
    show (s.tree.inodes.adjust id _).get? id = _
    rw [OrdMap.get?_adjust_self, hi]
    rfl
  simp only [wp_bind, wp_updateInode, wp_inodeOr, wp_pure]
  refine ⟨fun j hj => ⟨fun k hk => ?_, fun hnone => ?_⟩, fun hnone => ?_⟩
  · rw [hget] at hk
    injection hk with hk
    subst hk
    exact hQ
  · rw [hget] at hnone
    cases hnone
  · rw [hi] at hnone
    cases hnone

/-- The inodes after a survivor of an unlink from `parent` was given a parent
that still holds it. -/
def adopted (t : DirectoryTree) (parent id : FileId) : Inodes :=
  if (t.inodes.get? id).map Inode.parent = some parent then
    match directoryHolding t id with
    | some survivor => t.inodes.reparent id survivor
    | none => t.inodes
  else t.inodes

theorem adoptSurvivor_spec {parent id : FileId} {i : Inode} {Q : Unit → Vfs → Prop}
    {E : Failure → Vfs → Prop} (hi : s.tree.inodes.get? id = some i)
    (hQ : Q () { s with tree := { s.tree with inodes := adopted s.tree parent id } }) :
    wp (adoptSurvivor parent id) Q E s := by
  unfold adoptSurvivor
  unfold adopted at hQ
  simp only [wp_bind, wp_get, wp_ite]
  refine ⟨fun hp => ?_, fun hp => ?_⟩
  · rw [if_pos hp] at hQ
    cases hs : directoryHolding s.tree id with
    | none =>
        rw [hs] at hQ
        exact hQ
    | some survivor =>
        rw [hs] at hQ
        rw [wp_updateInode]
        refine ⟨fun j _ => hQ, fun hnone => ?_⟩
        rw [hi] at hnone
        cases hnone
  · rw [if_neg hp] at hQ
    exact hQ

/-- A successful `unlink`: the last entry goes with the inode, an earlier one
leaves a survivor. -/
def Unlinked (s : Vfs) (parent : FileId) (name : String) (s' : Vfs) : Prop :=
  ∃ dir id target, s.tree.inodes.get? parent = some dir ∧ dir.kind = .directory ∧
    dir.children.get? name = some id ∧ s.tree.inodes.get? id = some target ∧
    target.kind ≠ .directory ∧
    ((target.linkCount = 1 ∧
        s' = (s.edited (s.tree.inodes.cutEntry parent name)).freed id target) ∨
      (1 < target.linkCount ∧
        s' = s.edited (adopted { s.tree with
          inodes := (s.tree.inodes.cutEntry parent name).relink id (· - 1) } parent id)))

theorem unlink_spec (h : TreeInv s.tree) {parent : FileId} {name : String} :
    wp (unlink parent name) (fun _ => Unlinked s parent name) (Refused s) s := by
  unfold unlink
  simp only [wp_bind, wp_ensureWritable, wp_requireDir, wp_orThrow, wp_inodeOr]
  refine ⟨fun _ => refused_err, fun _ => ⟨fun dir hdir => ⟨fun _ => refused_err,
    fun hkind => ⟨fun id hname => ?_, fun _ => refused_err⟩⟩, fun _ => refused_err⟩⟩
  have hentry : s.tree.inodes.HasEntry parent name id := ⟨dir, hdir, hname⟩
  obtain ⟨hroot, target, htarget⟩ := h.ns.resolve parent name id hentry
  refine ⟨fun target' htarget' => ?_, fun hnone => ?_⟩
  · rw [htarget] at htarget'
    injection htarget' with htarget'
    subst htarget'
    simp only [wp_bind, wp_ite, wp_throw]
    refine ⟨fun _ => refused_err, fun htk => ?_⟩
    rw [wp_updateInode]
    refine ⟨fun _ _ => ?_, fun hnone => ?_⟩
    · -- the target is not the directory the entry was in
      have hne : id ≠ parent := by
        intro he
        rw [he, hdir] at htarget
        injection htarget with htarget
        exact htk (htarget ▸ hkind)
      have hcut : (s.mapInode parent fun dir =>
          { dir with children := dir.children.erase name }).tree.inodes.get? id = some target := by
        show (s.tree.inodes.adjust parent _).get? id = _
        rw [OrdMap.get?_adjust_of_ne hne, htarget]
      have hpos := h.ns.linkCount_pos htarget hroot
      rw [wp_bind]
      refine dropLink_spec hcut ?_
      by_cases hlast : target.linkCount = 1
      · have hz : (target.linkCount - 1 == 0) = true := by rw [hlast]; rfl
        simp only [hz, if_true, wp_bind]
        refine freeInode_spec (i := { target with linkCount := target.linkCount - 1 }) ?_ ?_
        · show ((s.tree.inodes.adjust parent _).adjust id _).get? id = _
          rw [OrdMap.get?_adjust_self, OrdMap.get?_adjust_of_ne hne, htarget]
          rfl
        · rw [wp_markDirty]
          refine ⟨dir, id, target, hdir, hkind, hname, htarget, htk, Or.inl ⟨hlast, ?_⟩⟩
          simp only [freed, mapInode, edited, Inodes.cutEntry, OrdMap.erase_adjust_self]
      · have hz : (target.linkCount - 1 == 0) = false := by
          rw [beq_eq_false_iff_ne]
          omega
        simp only [hz, Bool.false_eq_true, if_false, wp_bind]
        refine adoptSurvivor_spec (i := { target with linkCount := target.linkCount - 1 }) ?_ ?_
        · show ((s.tree.inodes.adjust parent _).adjust id _).get? id = _
          rw [OrdMap.get?_adjust_self, OrdMap.get?_adjust_of_ne hne, htarget]
          rfl
        · rw [wp_markDirty]
          exact ⟨dir, id, target, hdir, hkind, hname, htarget, htk, Or.inr ⟨by omega, rfl⟩⟩
    · rw [hdir] at hnone
      cases hnone
  · rw [htarget] at hnone
    cases hnone

/-- A successful `rmdir`. -/
def Rmdired (s : Vfs) (parent : FileId) (name : String) (s' : Vfs) : Prop :=
  ∃ dir id target, s.tree.inodes.get? parent = some dir ∧ dir.kind = .directory ∧
    dir.children.get? name = some id ∧ s.tree.inodes.get? id = some target ∧
    target.kind = .directory ∧ target.children.isEmpty = true ∧
    s' = s.edited (OrdMap.erase (s.tree.inodes.cutEntry parent name) id)

theorem rmdir_spec (h : TreeInv s.tree) {parent : FileId} {name : String} :
    wp (rmdir parent name) (fun _ => Rmdired s parent name) (Refused s) s := by
  unfold rmdir
  simp only [wp_bind, wp_ensureWritable, wp_requireDir, wp_orThrow, wp_inodeOr]
  refine ⟨fun _ => refused_err, fun _ => ⟨fun dir hdir => ⟨fun _ => refused_err,
    fun hkind => ⟨fun id hname => ?_, fun _ => refused_err⟩⟩, fun _ => refused_err⟩⟩
  have hentry : s.tree.inodes.HasEntry parent name id := ⟨dir, hdir, hname⟩
  obtain ⟨-, target, htarget⟩ := h.ns.resolve parent name id hentry
  refine ⟨fun target' htarget' => ?_, fun hnone => ?_⟩
  · rw [htarget] at htarget'
    injection htarget' with htarget'
    subst htarget'
    simp only [wp_bind, wp_ite, wp_throw, wp_modify, wp_updateInode, wp_markDirty]
    refine ⟨fun _ => refused_err, fun htk => ⟨fun _ => refused_err, fun hemp => ?_⟩⟩
    have htk : target.kind = .directory := not_not.mp htk
    have hemp : target.children.isEmpty = true := by simpa using hemp
    refine ⟨fun _ _ => ?_, fun hnone => ?_⟩
    · refine ⟨dir, id, target, hdir, hkind, hname, htarget, htk, hemp, ?_⟩
      simp only [mapInode, edited, Inodes.cutEntry, OrdMap.erase_adjust]
    · -- a directory that holds an entry is not the empty one
      have hne : parent ≠ id := by
        intro he
        rw [he, htarget] at hdir
        injection hdir with hdir
        rw [← hdir, OrdMap.isEmpty_iff.mp hemp name] at hname
        cases hname
      rw [OrdMap.get?_erase_of_ne hne, hdir] at hnone
      cases hnone
  · rw [htarget] at hnone
    cases hnone

/-! ## Rename -/

theorem mem_childrenOf_iff {t : DirectoryTree} {x y : FileId} :
    y ∈ (childrenOf t x).getD [] ↔ t.inodes.Edge x y := by
  rw [Inodes.edge_iff]
  unfold childrenOf
  cases t.inodes.get? x with
  | none => simp
  | some i => simp

/-- The search is exact, on any tree. -/
theorem isDescendantOf_iff {t : DirectoryTree} {root candidate : FileId} :
    isDescendantOf t root candidate = true ↔ TransGen t.inodes.Edge root candidate := by
  unfold isDescendantOf
  have hrel : (fun x y => y ∈ (childrenOf t x).getD []) = t.inodes.Edge := by
    funext x y
    exact propext mem_childrenOf_iff
  rw [← hrel]
  have hnodes : ∀ x, x ∈ t.inodes.keys ∨ (childrenOf t x).getD [] = [] := by
    intro x
    cases hx : t.inodes.get? x with
    | none => exact Or.inr (by simp [childrenOf, hx])
    | some i => exact Or.inl (OrdMap.mem_keys_iff.mpr ⟨i, hx⟩)
  exact searchFor_iff hnodes (le_refl _)

/-- The inodes after entry `(p, n)` of `id` became entry `(q, k)`. -/
def moved (m : Inodes) (p : FileId) (n : String) (q : FileId) (k : String) (id : FileId) :
    Inodes :=
  if p = q then (m.cutEntry p n).putEntry q k id
  else ((m.cutEntry p n).putEntry q k id).reparent id q

theorem moveEntry_spec {p q id : FileId} {n k : String} {Q : Unit → Vfs → Prop}
    {E : Failure → Vfs → Prop} (he : s.tree.inodes.HasEntry p n id)
    (hq : ∃ dir, s.tree.inodes.get? q = some dir)
    (hQ : Q () { s with tree := { s.tree with inodes := moved s.tree.inodes p n q k id } }) :
    wp (moveEntry p n q k) Q E s := by
  obtain ⟨old, hold, hid⟩ := he
  obtain ⟨dir, hdir⟩ := hq
  unfold moveEntry takeEntry
  unfold moved at hQ
  simp only [wp_bind, wp_inodeOr, wp_orThrow, wp_updateInode, wp_ite, wp_pure, wp_modify]
  refine ⟨fun old' hold' => ?_, fun hnone => ?_⟩
  · rw [hold] at hold'
    injection hold' with hold'
    subst hold'
    refine ⟨fun id' hid' => ?_, fun hnone => ?_⟩
    · rw [hid] at hid'
      injection hid' with hid'
      subst hid'
      refine ⟨fun _ _ => ⟨fun _ _ => ⟨fun hpq => ?_, fun hpq => ?_⟩, fun hnone => ?_⟩,
        fun hnone => ?_⟩
      · rw [if_pos hpq] at hQ
        exact hQ
      · rw [if_neg hpq] at hQ
        exact hQ
      · simp only [mapInode, OrdMap.get?_adjust, hdir] at hnone
        split at hnone
        · cases hnone
        · cases hnone
      · rw [hold] at hnone
        cases hnone
    · rw [hid] at hnone
      cases hnone
  · rw [hold] at hnone
    cases hnone

/-- A successful `rename`: nothing to do, a free name, or a displaced inode
that loses its last entry or one of several. -/
def Renamed (s : Vfs) (p : FileId) (n : String) (q : FileId) (k : String) (s' : Vfs) : Prop :=
  (s' = s ∧ ∃ id, s.tree.inodes.HasEntry p n id ∧ s.tree.inodes.HasEntry q k id) ∨
  ∃ dir id, s.tree.inodes.HasEntry p n id ∧ s.tree.inodes.get? q = some dir ∧
    dir.kind = .directory ∧ ¬ ReflTransGen s.tree.inodes.Edge id q ∧
    ((dir.children.get? k = none ∧ s' = s.edited (moved s.tree.inodes p n q k id)) ∨
      ∃ dst target, dir.children.get? k = some dst ∧ dst ≠ id ∧
        s.tree.inodes.get? dst = some target ∧ target.children.isEmpty = true ∧
        ((target.linkCount = 1 ∧
            s' = (s.freed dst target).edited (moved (s.tree.inodes.erase dst) p n q k id)) ∨
          (1 < target.linkCount ∧
            s' = s.edited (moved (s.tree.inodes.relink dst (· - 1)) p n q k id))))

/-- What the checks on the existing entry let through: a leaf. -/
theorem checkDisplaced_spec (h : TreeInv s.tree) {srcId dstId : FileId} {srcKind : InodeKind}
    {target : Inode} (hdst : s.tree.inodes.get? dstId = some target) :
    wp (checkDisplaced srcId dstId srcKind)
      (fun r s' => s' = s ∧ ((r = none ∧ srcId = dstId) ∨
        (r = some dstId ∧ srcId ≠ dstId ∧ target.children.isEmpty = true)))
      (Refused s) s := by
  unfold checkDisplaced
  rw [wp_ite]
  refine ⟨fun heq => ⟨rfl, Or.inl ⟨rfl, heq⟩⟩, fun hne => ?_⟩
  rw [wp_bind, wp_inodeOr]
  refine ⟨fun target' htarget' => ?_, fun hnone => ?_⟩
  · rw [hdst] at htarget'
    injection htarget' with htarget'
    subst htarget'
    have hleaf := h.ns.leaf dstId target hdst
    cases hk : target.kind with
    | directory =>
        cases srcKind with
        | directory =>
            show wp (if target.children.isEmpty = false then _ else _) _ _ s
            rw [wp_ite]
            refine ⟨fun _ => refused_err, fun hemp => ⟨rfl, Or.inr ⟨rfl, hne, ?_⟩⟩⟩
            simpa using hemp
        | file => exact refused_err
        | symlink => exact refused_err
    | file =>
        have hleaf := hleaf (by rw [hk]; decide)
        cases srcKind with
        | directory => exact refused_err
        | file => exact ⟨rfl, Or.inr ⟨rfl, hne, hleaf⟩⟩
        | symlink => exact ⟨rfl, Or.inr ⟨rfl, hne, hleaf⟩⟩
    | symlink =>
        have hleaf := hleaf (by rw [hk]; decide)
        cases srcKind with
        | directory => exact refused_err
        | file => exact ⟨rfl, Or.inr ⟨rfl, hne, hleaf⟩⟩
        | symlink => exact ⟨rfl, Or.inr ⟨rfl, hne, hleaf⟩⟩
  · rw [hdst] at hnone
    cases hnone

theorem rename_spec (h : TreeInv s.tree) {p q : FileId} {n k : String} :
    wp (rename p n q k) (fun _ => Renamed s p n q k) (Refused s) s := by
  unfold rename
  simp only [wp_bind, wp_ensureWritable, wp_fromExcept, wp_ite]
  refine ⟨fun _ => refused_err, fun _ => ⟨fun _ _ => ⟨fun _ _ => ⟨fun hsame => ?_, fun hdiff => ?_⟩,
    fun e he => ⟨rfl, validateNewName_ne_panic he⟩⟩, fun e he => ⟨rfl, validateName_ne_panic he⟩⟩⟩
  · unfold renameSame
    simp only [wp_bind, wp_requireDir, wp_ite, wp_pure, wp_throw]
    refine ⟨fun dir hdir => ⟨fun _ => refused_err, fun _ => ⟨fun hin => Or.inl ⟨rfl, ?_⟩,
      fun _ => refused_err⟩⟩, fun _ => refused_err⟩
    obtain ⟨rfl, rfl⟩ := hsame
    obtain ⟨id, hid⟩ := OrdMap.contains_iff.mp hin
    exact ⟨id, ⟨dir, hdir, hid⟩, ⟨dir, hdir, hid⟩⟩
  · simp only [wp_requireDir, wp_orThrow, wp_inodeOr, wp_get, wp_ite, wp_throw, wp_bind]
    refine ⟨fun old hold => ⟨fun _ => refused_err, fun holdk => ⟨fun id hid => ?_,
      fun _ => refused_err⟩⟩, fun _ => refused_err⟩
    have hentry : s.tree.inodes.HasEntry p n id := ⟨old, hold, hid⟩
    obtain ⟨-, src, hsrc⟩ := h.ns.resolve p n id hentry
    refine ⟨fun dir hdir => ⟨fun _ => refused_err, fun hdk => ⟨fun src' hsrc' => ?_, fun hnone => ?_⟩⟩,
      fun _ => refused_err⟩
    · rw [hsrc] at hsrc'
      injection hsrc' with hsrc'
      subst hsrc'
      refine ⟨fun _ => refused_err, fun hcycle => ?_⟩
      -- only a directory has a subtree, and the check covers all of it
      have hout : ¬ ReflTransGen s.tree.inodes.Edge id q := by
        intro hreach
        rcases ReflTransGen.cases_head hreach with heq | ⟨c, hc, hrest⟩
        · subst heq
          rw [hsrc] at hdir
          injection hdir with hdir
          exact hcycle ⟨by rw [hdir]; exact hdk, Or.inl rfl⟩
        · obtain ⟨l, hl⟩ := hc
          have hsk := h.ns.dir_of_hasEntry hsrc hl
          exact hcycle ⟨hsk, Or.inr (isDescendantOf_iff.mpr (TransGen.head' ⟨l, hl⟩ hrest))⟩
      cases hname : dir.children.get? k with
      | none =>
          simp only [wp_bind]
          refine moveEntry_spec hentry ⟨dir, hdir⟩ ?_
          rw [wp_markDirty]
          exact Or.inr ⟨dir, id, hentry, hdir, hdk, hout, Or.inl ⟨hname, rfl⟩⟩
      | some dst =>
          have hdentry : s.tree.inodes.HasEntry q k dst := ⟨dir, hdir, hname⟩
          obtain ⟨hdroot, target, hdst⟩ := h.ns.resolve q k dst hdentry
          simp only [wp_bind]
          refine wp_mono (checkDisplaced_spec h hdst) ?_ fun _ _ hE => hE
          rintro r s' ⟨rfl, ⟨rfl, heq⟩ | ⟨rfl, hne, hemp⟩⟩
          · exact Or.inl ⟨rfl, id, hentry, heq ▸ hdentry⟩
          · simp only [wp_bind]
            unfold displace
            rw [wp_bind]
            -- neither directory is the displaced leaf
            have hleaf : ∀ l c, ¬ s'.tree.inodes.HasEntry dst l c := by
              rintro l c ⟨j, hj, hc⟩
              rw [hdst] at hj
              injection hj with hj
              rw [← hj, OrdMap.isEmpty_iff.mp hemp l] at hc
              cases hc
            have hpd : p ≠ dst := fun hpd => hleaf n id (hpd ▸ hentry)
            have hqd : q ≠ dst := fun hqd => hleaf k dst (hqd ▸ hdentry)
            have hpos := h.ns.linkCount_pos hdst hdroot
            refine dropLink_spec hdst ?_
            by_cases hlast : target.linkCount = 1
            · have hz : (target.linkCount - 1 == 0) = true := by rw [hlast]; rfl
              simp only [hz, if_true]
              refine freeInode_spec (i := { target with linkCount := target.linkCount - 1 }) ?_ ?_
              · show (s'.tree.inodes.adjust dst _).get? dst = _
                rw [OrdMap.get?_adjust_self, hdst]
                rfl
              · have hin : (((s'.mapInode dst fun i => { i with linkCount := i.linkCount - 1 }).freed
                    dst { target with linkCount := target.linkCount - 1 }).tree.inodes) =
                    OrdMap.erase s'.tree.inodes dst := OrdMap.erase_adjust_self
                rw [wp_bind]
                have hentry' : Inodes.HasEntry (OrdMap.erase s'.tree.inodes dst) p n id :=
                  (Inodes.hasEntry_erase hleaf).mpr hentry
                rw [← hin] at hentry'
                refine moveEntry_spec hentry' ?_ ?_
                · rw [hin, OrdMap.get?_erase_of_ne hqd]
                  exact ⟨dir, hdir⟩
                · rw [wp_markDirty]
                  refine Or.inr ⟨dir, id, hentry, hdir, hdk, hout, Or.inr ⟨dst, target, hname,
                    fun he => hne he.symm, hdst, hemp, Or.inl ⟨hlast, ?_⟩⟩⟩
                  simp only [edited, freed, mapInode, OrdMap.erase_adjust_self]
            · have hz : (target.linkCount - 1 == 0) = false := by
                rw [beq_eq_false_iff_ne]
                omega
              simp only [hz, Bool.false_eq_true, if_false, wp_pure, wp_bind]
              have hentry' : (s'.tree.inodes.relink dst (· - 1)).HasEntry p n id :=
                Inodes.hasEntry_relink.mpr hentry
              refine moveEntry_spec hentry' ?_ ?_
              · show ∃ d, (s'.tree.inodes.adjust dst _).get? q = some d
                rw [OrdMap.get?_adjust_of_ne hqd]
                exact ⟨dir, hdir⟩
              · rw [wp_markDirty]
                exact Or.inr ⟨dir, id, hentry, hdir, hdk, hout, Or.inr ⟨dst, target, hname,
                  fun he => hne he.symm, hdst, hemp, Or.inr ⟨by omega, rfl⟩⟩⟩
    · rw [hsrc] at hnone
      cases hnone

/-! ## Attributes -/

/-- A successful `chmod` or `set_mtime`. -/
def AttrSet (s : Vfs) (id : FileId) (f : Inode → Inode) (s' : Vfs) : Prop :=
  ∃ i, s.tree.inodes.get? id = some i ∧ s' = s.edited (s.tree.inodes.adjust id f)

theorem setAttr_spec {id : FileId} {f : Inode → Inode} :
    wp (setAttr id f) (fun _ => AttrSet s id f) (Refused s) s := by
  unfold setAttr
  simp only [wp_bind, wp_ensureWritable, wp_inodeOr, wp_modify]
  refine ⟨fun _ => refused_err, fun _ => ⟨fun i hi => ⟨i, hi, ?_⟩, fun _ => refused_err⟩⟩
  unfold edited
  rw [OrdMap.adjust_eq_insert hi]

end Vfs

end Luksbox
