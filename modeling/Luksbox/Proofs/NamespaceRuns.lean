import Luksbox.Proofs.NamespaceOps
import Luksbox.Proofs.Validator

/-!
# Runs of directory operations

The invariant is kept by every outcome of every directory operation, hence by
every run of them. A rename over an existing entry is taken apart into two
edits that are known to keep it: the displaced leaf loses its entry, and the
subtree moves to the name that is now free.
-/

namespace Luksbox

open Lib Relation

namespace Inodes

variable {m : Inodes}

/-- Cutting the entry that is overwritten later changes nothing. -/
theorem putEntry_cutEntry {p q id : FileId} {n k : String} :
    (((m.cutEntry q k).cutEntry p n).putEntry q k id) = (m.cutEntry p n).putEntry q k id := by
  have hcomm : (m.cutEntry q k).cutEntry p n = (m.cutEntry p n).cutEntry q k := by
    refine OrdMap.adjust_comm fun i => ?_
    simp only [OrdMap.erase_comm]
  rw [hcomm]
  unfold putEntry
  rw [cutEntry, OrdMap.adjust_adjust]
  simp only [OrdMap.insert_erase]

theorem moved_cutEntry {p q id : FileId} {n k : String} :
    Vfs.moved (m.cutEntry q k) p n q k id = Vfs.moved m p n q k id := by
  unfold Vfs.moved
  rw [putEntry_cutEntry]

theorem relink_cutEntry {q id : FileId} {k : String} {f : Nat → Nat} :
    (m.cutEntry q k).relink id f = (m.relink id f).cutEntry q k :=
  OrdMap.adjust_comm fun _ => rfl

/-- The ids after a move are those before. -/
theorem exists_of_get?_moved {p q id x : FileId} {n k : String} {i : Inode}
    (h : (Vfs.moved m p n q k id).get? x = some i) : ∃ j, m.get? x = some j := by
  unfold Vfs.moved at h
  split at h
  · obtain ⟨j, hj⟩ := OrdMap.exists_of_get?_adjust h
    exact OrdMap.exists_of_get?_adjust hj
  · obtain ⟨j, hj⟩ := OrdMap.exists_of_get?_adjust h
    obtain ⟨j, hj⟩ := OrdMap.exists_of_get?_adjust hj
    exact OrdMap.exists_of_get?_adjust hj

end Inodes

theorem NsInv.moved {m : Inodes} (h : NsInv m) {p q id : FileId} {n k : String} {dir : Inode}
    (he : m.HasEntry p n id) (hq : m.get? q = some dir) (hdir : dir.kind = .directory)
    (hk : dir.children.get? k = none) (hout : ¬ ReflTransGen m.Edge id q) :
    NsInv (Vfs.moved m p n q k id) := by
  unfold Vfs.moved
  split
  · exact h.move he hq hdir hk hout
  · exact (h.move he hq hdir hk hout).reparent id q

namespace TreeInv

variable {s s' : Vfs}

theorem entered (h : TreeInv s.tree) {parent id : FileId} {name : String}
    {node : FileId → Nat → Inode} (hs : Vfs.Entered s parent name node id s') :
    TreeInv s'.tree := by
  obtain ⟨-, hs', -, hnode, -, -, dir, hdir, hkind, hname⟩ := hs
  have hfresh : s.tree.inodes.get? s.tree.nextFileId = none := by
    cases hg : s.tree.inodes.get? s.tree.nextFileId with
    | none => rfl
    | some i => exact absurd (h.fresh _ i hg) (Nat.lt_irrefl _)
  rw [hs']
  constructor
  · exact h.ns.addNode hfresh hdir hkind hname (hnode.id _ _) (hnode.children _ _)
      (hnode.linkCount _ _)
  · intro x i hi
    show x < s.tree.nextFileId + 1
    obtain ⟨j, hj⟩ := OrdMap.exists_of_get?_adjust hi
    rw [OrdMap.get?_insert] at hj
    split at hj
    · lia
    · exact Nat.lt_succ_of_lt (h.fresh x j hj)

theorem linked (h : TreeInv s.tree) {targetId newParent : FileId} {newName : String}
    (hs : Vfs.Linked s targetId newParent newName s') : TreeInv s'.tree := by
  obtain ⟨target, dir, htarget, hfile, hlt, hdir, hkind, hname, rfl⟩ := hs
  have hsucc : min (target.linkCount + 1) u32Max = target.linkCount + 1 := by omega
  constructor
  · exact h.ns.addLink (f := fun n => min (n + 1) u32Max) htarget hfile hdir hkind hname hsucc
  · intro x i hi
    obtain ⟨j, hj⟩ := OrdMap.exists_of_get?_adjust hi
    obtain ⟨j, hj⟩ := OrdMap.exists_of_get?_adjust hj
    exact h.fresh x j hj

/-- Only the survivor's parent pointer is touched. -/
theorem adopted {t : DirectoryTree} (h : TreeInv t) {parent id : FileId} :
    TreeInv { t with inodes := Vfs.adopted t parent id } := by
  unfold Vfs.adopted
  split
  · split
    · next survivor _ =>
        refine ⟨h.ns.reparent id survivor, ?_⟩
        intro x i hi
        obtain ⟨j, hj⟩ := OrdMap.exists_of_get?_adjust hi
        exact h.fresh x j hj
    · exact h
  · exact h

theorem unlinked (h : TreeInv s.tree) {parent : FileId} {name : String}
    (hs : Vfs.Unlinked s parent name s') : TreeInv s'.tree := by
  obtain ⟨dir, id, target, hdir, hkind, hname, htarget, htk, hcase⟩ := hs
  have hentry : s.tree.inodes.HasEntry parent name id := ⟨dir, hdir, hname⟩
  have hemp := h.ns.leaf id target htarget htk
  rcases hcase with ⟨hlast, rfl⟩ | ⟨hmore, rfl⟩
  · refine ⟨h.ns.dropNode hentry htarget hemp hlast, ?_⟩
    intro x i hi
    obtain ⟨-, hi⟩ := OrdMap.exists_of_get?_erase hi
    obtain ⟨j, hj⟩ := OrdMap.exists_of_get?_adjust hi
    exact h.fresh x j hj
  · have hinv : TreeInv { s.tree with
        inodes := (s.tree.inodes.cutEntry parent name).relink id (· - 1) } := by
      refine ⟨h.ns.dropLink hentry htarget hemp hmore, ?_⟩
      intro x i hi
      obtain ⟨j, hj⟩ := OrdMap.exists_of_get?_adjust hi
      obtain ⟨j, hj⟩ := OrdMap.exists_of_get?_adjust hj
      exact h.fresh x j hj
    exact hinv.adopted

theorem rmdired (h : TreeInv s.tree) {parent : FileId} {name : String}
    (hs : Vfs.Rmdired s parent name s') : TreeInv s'.tree := by
  obtain ⟨dir, id, target, hdir, hkind, hname, htarget, htk, hemp, rfl⟩ := hs
  have hlast := h.ns.single id target htarget (by rw [htk]; decide)
  refine ⟨h.ns.dropNode ⟨dir, hdir, hname⟩ htarget hemp hlast, ?_⟩
  intro x i hi
  obtain ⟨-, hi⟩ := OrdMap.exists_of_get?_erase hi
  obtain ⟨j, hj⟩ := OrdMap.exists_of_get?_adjust hi
  exact h.fresh x j hj

theorem renamed (h : TreeInv s.tree) {p q : FileId} {n k : String}
    (hs : Vfs.Renamed s p n q k s') : TreeInv s'.tree := by
  rcases hs with ⟨rfl, -⟩ | ⟨dir, id, he, hq, hdk, hout, hcase⟩
  · exact h
  rcases hcase with ⟨hname, rfl⟩ | ⟨dst, target, hname, hne, hdst, hemp, hcase⟩
  · refine ⟨h.ns.moved he hq hdk hname hout, ?_⟩
    intro x i hi
    obtain ⟨j, hj⟩ := Inodes.exists_of_get?_moved hi
    exact h.fresh x j hj
  · have hdentry : s.tree.inodes.HasEntry q k dst := ⟨dir, hq, hname⟩
    have hqd : q ≠ dst := by
      intro hqd
      rw [hqd, hdst] at hq
      injection hq with hq
      rw [← hq, OrdMap.isEmpty_iff.mp hemp k] at hname
      cases hname
    -- once the displaced entry is cut, the move is to a free name
    have hpq : ¬ (p = q ∧ n = k) := by
      rintro ⟨rfl, rfl⟩
      obtain ⟨j, hj, hjn⟩ := he
      rw [hq] at hj
      injection hj with hj
      rw [← hj, hname] at hjn
      injection hjn with hjn
      exact hne hjn
    have hcut : (s.tree.inodes.cutEntry q k).HasEntry p n id :=
      Inodes.hasEntry_cutEntry.mpr ⟨hpq, he⟩
    have hqcut : (s.tree.inodes.cutEntry q k).get? q =
        some { dir with children := dir.children.erase k } := by
      unfold Inodes.cutEntry
      rw [OrdMap.get?_adjust_self, hq]
      rfl
    have hfree : (dir.children.erase k).get? k = none := OrdMap.get?_erase_self
    have hsub : ∀ {m' : Inodes}, (∀ d l c, m'.HasEntry d l c → s.tree.inodes.HasEntry d l c) →
        ¬ ReflTransGen m'.Edge id q := by
      intro m' hm' hreach
      exact hout (ReflTransGen.mono (fun a b hab => hab.imp fun l hl => hm' a l b hl) _ _ hreach)
    have hleaf : ∀ l c, ¬ (s.tree.inodes.cutEntry q k).HasEntry dst l c := by
      intro l c hc
      obtain ⟨j, hj, hc⟩ := (Inodes.hasEntry_cutEntry.mp hc).2
      rw [hdst] at hj
      injection hj with hj
      rw [← hj, OrdMap.isEmpty_iff.mp hemp l] at hc
      cases hc
    rcases hcase with ⟨hlast, rfl⟩ | ⟨hmore, rfl⟩
    · have hns := h.ns.dropNode hdentry hdst hemp hlast
      have heq : OrdMap.erase (s.tree.inodes.cutEntry q k) dst =
          Inodes.cutEntry (OrdMap.erase s.tree.inodes dst) q k := OrdMap.erase_adjust
      refine ⟨?_, ?_⟩
      · show NsInv (Vfs.moved (OrdMap.erase s.tree.inodes dst) p n q k id)
        rw [← Inodes.moved_cutEntry, ← heq]
        have hq' := hqcut
        rw [← OrdMap.get?_erase_of_ne hqd] at hq'
        refine hns.moved ((Inodes.hasEntry_erase hleaf).mpr hcut) hq' hdk hfree (hsub ?_)
        · intro d l c hc
          exact (Inodes.hasEntry_cutEntry.mp ((Inodes.hasEntry_erase hleaf).mp hc)).2
      · intro x i hi
        obtain ⟨j, hj⟩ := Inodes.exists_of_get?_moved hi
        exact h.fresh x j (OrdMap.exists_of_get?_erase hj).2
    · have hns := h.ns.dropLink hdentry hdst hemp hmore
      refine ⟨?_, ?_⟩
      · show NsInv (Vfs.moved (s.tree.inodes.relink dst (· - 1)) p n q k id)
        rw [← Inodes.moved_cutEntry, ← Inodes.relink_cutEntry]
        have hq' : ((s.tree.inodes.cutEntry q k).relink dst (· - 1)).get? q = _ :=
          (OrdMap.get?_adjust_of_ne hqd).trans hqcut
        refine hns.moved (Inodes.hasEntry_relink.mpr hcut) hq' hdk hfree (hsub ?_)
        · intro d l c hc
          exact (Inodes.hasEntry_cutEntry.mp (Inodes.hasEntry_relink.mp hc)).2
      · intro x i hi
        obtain ⟨j, hj⟩ := Inodes.exists_of_get?_moved hi
        obtain ⟨j, hj⟩ := OrdMap.exists_of_get?_adjust hj
        exact h.fresh x j hj

/-- Attributes are no part of the namespace. -/
theorem attrSet (h : TreeInv s.tree) {id : FileId} {f : Inode → Inode}
    (hs : Vfs.AttrSet s id f s') (hf : ∀ i, (f i).node = i.node) : TreeInv s'.tree := by
  obtain ⟨i, hi, rfl⟩ := hs
  refine ⟨h.ns.adjust hf, ?_⟩
  intro x j hj
  obtain ⟨k, hk⟩ := OrdMap.exists_of_get?_adjust hj
  exact h.fresh x k hk

end TreeInv

/-! ## One call -/

/-- The calls of this layer. -/
def Op.isNamespace : Op → Bool
  | .mkdir .. | .create .. | .symlink .. | .link .. | .unlink .. | .rmdir .. | .rename .. => true
  | _ => false

/-- Those, and the two that set attributes. -/
def Op.isEdit : Op → Bool
  | .chmod .. | .setMtime .. => true
  | op => op.isNamespace

namespace Vfs

variable {s : Vfs}

/-- What a directory operation that returned has done. -/
def Edited (s : Vfs) : Op → Vfs → Prop
  | .mkdir parent name, s' => ∃ id, Entered s parent name (newDirectory parent) id s'
  | .create parent name mode, s' => ∃ id, Entered s parent name (newFile parent mode) id s'
  | .symlink parent name target, s' => ∃ id, Entered s parent name (newSymlink parent target) id s'
  | .link targetId newParent newName, s' => Linked s targetId newParent newName s'
  | .unlink parent name, s' => Unlinked s parent name s'
  | .rmdir parent name, s' => Rmdired s parent name s'
  | .rename p n q k, s' => Renamed s p n q k s'
  | .chmod id mode, s' => AttrSet s id (fun inode => { inode with mode := mode &&& 0o7777 }) s'
  | .setMtime id mtimeNs, s' => AttrSet s id (fun inode => { inode with mtimeNs := mtimeNs }) s'
  | _, s' => s' = s

theorem exec_edit_spec (h : TreeInv s.tree) {op : Op} (hop : op.isEdit = true) :
    wp (exec op) (fun _ s' => Edited s op s') (Refused s) s := by
  cases op with
  | mkdir parent name =>
      exact wp_map.mpr (wp_mono (mkdir_spec h) (fun id _ hs => ⟨id, hs⟩) fun _ _ hE => hE)
  | create parent name mode =>
      exact wp_map.mpr (wp_mono (createWithMode_spec h) (fun id _ hs => ⟨id, hs⟩) fun _ _ hE => hE)
  | symlink parent name target =>
      exact wp_map.mpr (wp_mono (symlink_spec h) (fun id _ hs => ⟨id, hs⟩) fun _ _ hE => hE)
  | link targetId newParent newName => exact wp_map.mpr link_spec
  | unlink parent name => exact wp_map.mpr (unlink_spec h)
  | rmdir parent name => exact wp_map.mpr (rmdir_spec h)
  | rename p n q k => exact wp_map.mpr (rename_spec h)
  | chmod id mode => exact wp_map.mpr setAttr_spec
  | setMtime id mtimeNs => exact wp_map.mpr setAttr_spec
  | _ => cases hop

theorem treeInv_edited (h : TreeInv s.tree) {op : Op} {s' : Vfs} (hs : Edited s op s') :
    TreeInv s'.tree := by
  cases op with
  | mkdir parent name =>
      obtain ⟨id, hs⟩ := hs
      exact h.entered hs
  | create parent name mode =>
      obtain ⟨id, hs⟩ := hs
      exact h.entered hs
  | symlink parent name target =>
      obtain ⟨id, hs⟩ := hs
      exact h.entered hs
  | link targetId newParent newName => exact h.linked hs
  | unlink parent name => exact h.unlinked hs
  | rmdir parent name => exact h.rmdired hs
  | rename p n q k => exact h.renamed hs
  | chmod id mode =>
      have hs : AttrSet s id _ s' := hs
      exact h.attrSet hs fun _ => rfl
  | setMtime id mtimeNs =>
      have hs : AttrSet s id _ s' := hs
      exact h.attrSet hs fun _ => rfl
  | _ =>
      have hs : s' = s := hs
      rw [hs]
      exact h

/-- A directory operation keeps the invariant, and where it fails the tree. -/
theorem step_edit (h : TreeInv s.tree) {c : Call} (hop : c.op.isEdit = true) :
    TreeInv (s.step c).tree ∧ ∀ e s', s.call c = .error e s' → s'.tree = s.tree := by
  have henv : TreeInv (s.withEnv c.env).tree := h
  have hspec := exec_edit_spec henv hop
  constructor
  · refine step_of_wp (wp_mono hspec (fun _ _ hs => treeInv_edited henv hs) ?_)
    rintro e s' ⟨rfl, -⟩
    exact henv
  · intro e s' he
    obtain ⟨rfl, -⟩ := of_wp_error hspec he
    rfl

/-! ## Runs -/

theorem run_cons {c : Call} {calls : List Call} : s.run (c :: calls) = (s.step c).run calls := rfl

theorem run_edits (h : TreeInv s.tree) {calls : List Call}
    (hops : ∀ c ∈ calls, c.op.isEdit = true) : TreeInv (s.run calls).tree := by
  induction calls generalizing s with
  | nil => exact h
  | cons c calls ih =>
      rw [run_cons]
      exact ih (step_edit h (hops c List.mem_cons_self)).1
        fun c' hc' => hops c' (List.mem_cons_of_mem _ hc')

end Vfs

theorem isEdit_of_isNamespace {op : Op} (h : op.isNamespace = true) : op.isEdit = true := by
  cases op <;> first | rfl | cases h

/-- A fresh tree is one. -/
theorem TreeInv.new : TreeInv DirectoryTree.new := by
  have hget : ∀ id i, DirectoryTree.new.inodes.get? id = some i →
      id = rootId ∧ i = DirectoryTree.newRoot := by
    intro id i hi
    change (OrdMap.insert OrdMap.empty rootId DirectoryTree.newRoot).get? id = some i at hi
    rw [OrdMap.get?_insert] at hi
    split at hi
    · next hid =>
        injection hi with hi
        exact ⟨hid, hi.symm⟩
    · cases hi
  have hno : ∀ d n c, ¬ DirectoryTree.new.inodes.HasEntry d n c := by
    rintro d n c ⟨i, hi, hn⟩
    rw [(hget d i hi).2] at hn
    cases hn
  refine ⟨⟨⟨_, OrdMap.get?_insert_self, rfl⟩, ?_, ?_, ?_, ?_, ?_, ?_⟩, ?_⟩
  · intro id i hi
    obtain ⟨rfl, rfl⟩ := hget id i hi
    rfl
  · intro id i hi hk
    obtain ⟨rfl, rfl⟩ := hget id i hi
    exact absurd rfl hk
  · intro d n c he
    exact absurd he (hno d n c)
  · intro id i hid hi
    exact absurd (hget id i hi).1 hid
  · intro id i hi _
    obtain ⟨rfl, rfl⟩ := hget id i hi
    rfl
  · intro id i hi
    rw [(hget id i hi).1]
  · intro id i hi
    rw [(hget id i hi).1]
    exact Nat.lt_succ_self _

theorem TreeInv.ofValid {t : DirectoryTree} {dataOffset : Nat} {hideSize : Bool}
    (h : Valid t dataOffset hideSize) (hfit : EntriesFit t) : TreeInv t :=
  ⟨h.nsInv hfit, fun id i hi => (h.inodes id i hi).bound⟩

/-- The trees a session starts from: a fresh one, or one the validator accepts
whose entry counts fit the `u32` it counts with. -/
def Starts (s : Vfs) : Prop :=
  s.tree = DirectoryTree.new ∨
    validateMetadataTree s.tree s.dataOffset s.hideSize = .ok () ∧ EntriesFit s.tree

theorem Starts.treeInv {s : Vfs} (h : Starts s) : TreeInv s.tree := by
  rcases h with h | ⟨h, hfit⟩
  · rw [h]
    exact TreeInv.new
  · exact TreeInv.ofValid (validate_iff.mp h) hfit

/-- What it means for the inodes to form a directory tree with hard links. -/
structure IsTree (m : Inodes) : Prop where
  resolve : ∀ d n c, m.HasEntry d n c → c ≠ rootId ∧ ∃ i, m.get? c = some i
  file : ∀ id i, m.get? id = some i → i.kind = .file → i.linkCount = m.entryCount id
  single : ∀ id i, m.get? id = some i → i.kind ≠ .file →
    m.entryCount id = if id = rootId then 0 else 1
  reach : ∀ id i, m.get? id = some i → ReflTransGen m.Edge rootId id
  acyclic : ∀ id, ¬ TransGen m.Edge id id

theorem NsInv.isTree {m : Inodes} (h : NsInv m) : IsTree m where
  resolve := h.resolve
  file := by
    intro id i hi hk
    refine (h.count id i ?_ hi).symm
    rintro rfl
    obtain ⟨r, hr, hrk⟩ := h.root
    rw [hr] at hi
    injection hi with hi
    rw [hi, hk] at hrk
    cases hrk
  single := by
    intro id i hi hk
    split
    · next hid => rw [hid, h.rootCount]
    · next hid => rw [h.count id i hid hi, h.single id i hi hk]
  reach := h.reach
  acyclic := h.acyclic

/-- In every state a run of directory operations reaches the namespace is a
tree with exact counts, and the next call that fails leaves it alone. -/
theorem namespace_always_tree {s : Vfs} (hs : Starts s) {calls : List Call}
    (hops : ∀ c ∈ calls, c.op.isNamespace = true) :
    IsTree (s.run calls).tree.inodes ∧
      ∀ c : Call, c.op.isNamespace = true → ∀ e s', (s.run calls).call c = .error e s' →
        s'.tree = (s.run calls).tree := by
  have hinv : TreeInv (s.run calls).tree :=
    Vfs.run_edits hs.treeInv fun c hc => isEdit_of_isNamespace (hops c hc)
  exact ⟨hinv.ns.isTree, fun c hc => (Vfs.step_edit hinv (isEdit_of_isNamespace hc)).2⟩

/-- A vault right after its creation, with hidden sizes off. -/
def Vfs.plain : Vfs :=
  Vfs.fresh (Container.created ⟨versionMajorV2, false, false, 4096, 8192⟩ false 0 0) .v5

/-- The call in quiet surroundings. -/
def Op.quiet (op : Op) : Call := ⟨op, Env.quiet⟩

theorem namespace_always_tree_plain :
    IsTree (Vfs.plain.run [(Op.mkdir 1 "a").quiet, (Op.create 1 "f" 0o644).quiet,
        (Op.link 3 2 "g").quiet, (Op.rename 1 "a" 2 "b").quiet]).tree.inodes ∧
      ∀ c : Call, c.op.isNamespace = true → ∀ e s',
        (Vfs.plain.run [(Op.mkdir 1 "a").quiet, (Op.create 1 "f" 0o644).quiet,
          (Op.link 3 2 "g").quiet, (Op.rename 1 "a" 2 "b").quiet]).call c = .error e s' →
        s'.tree = (Vfs.plain.run [(Op.mkdir 1 "a").quiet, (Op.create 1 "f" 0o644).quiet,
          (Op.link 3 2 "g").quiet, (Op.rename 1 "a" 2 "b").quiet]).tree :=
  namespace_always_tree (Or.inl rfl) (by decide)

end Luksbox
