import Luksbox.Proofs.Contents
import Luksbox.Proofs.Failures

/-!
# The vault as a file system

To its user a vault is a set of names and, behind the names, files that are
lists of bytes. `FileSystem` is that and `FileSystem.Step` what each call means
there: chunks, size headers, padding, slots and flushes do not occur. A file
lives as long as some directory has a name for it.

`Vfs.fileSystem` reads the file system off a state. A call that returns does to
it what its step says, and a call that fails does nothing at all, as long as it
has rewritten none of its chunks in place (`Op.Spares`).
-/

namespace Luksbox

open Lib Lib.ByteFile Relation

structure FileSystem where
  names : FileId → String → Option FileId
  files : FileId → Option (List UInt8)

namespace FileSystem

/-- Some directory has a name for `id`. -/
def Named (names : FileId → String → Option FileId) (id : FileId) : Prop :=
  ∃ d n, names d n = some id

/-- One name given, or taken away. -/
def assign (names : FileId → String → Option FileId) (d : FileId) (n : String)
    (target : Option FileId) : FileId → String → Option FileId :=
  fun d' n' => if d' = d ∧ n' = n then target else names d' n'

open Classical in
/-- The files that still have a name under the new names. -/
noncomputable def withNames (a : FileSystem) (names : FileId → String → Option FileId) :
    FileSystem where
  names := names
  files := fun id => if Named names id then a.files id else none

def withFile (a : FileSystem) (f : FileId) (bs : List UInt8) : FileSystem where
  names := a.names
  files := Function.update a.files f (some bs)

/-- What a call that returned `r` has done. -/
def Step (a : FileSystem) (op : Op) (r : Reply) (a' : FileSystem) : Prop :=
  match op with
  | .lookup d n => a' = a ∧ ∃ id, r = .id id ∧ a.names d n = some id
  | .readdir d => a' = a ∧ ∃ es, r = .entries es ∧
      ∀ n id, (∃ e ∈ es, e.name = n ∧ e.id = id) ↔ a.names d n = some id
  | .stat f => a' = a ∧ ∃ st, r = .stat st ∧ ∀ bs, a.files f = some bs → st.size = bs.length
  | .read f off len => a' = a ∧ ∃ bs, a.files f = some bs ∧
      r = .data (slice bs off len).length (slice bs off len)
  | .write f off buf => r = .count buf.length ∧ ((buf = [] ∧ a' = a) ∨
      ∃ bs, a.files f = some bs ∧ a' = a.withFile f (overwrite bs off buf))
  | .truncate f n => ∃ bs, a.files f = some bs ∧ a' = a.withFile f (resize bs n)
  | .create d n _ => ∃ id, r = .id id ∧ a.names d n = none ∧ ¬ Named a.names id ∧
      a' = (a.withNames (assign a.names d n (some id))).withFile id []
  | .mkdir d n | .symlink d n _ => ∃ id, r = .id id ∧ a.names d n = none ∧ ¬ Named a.names id ∧
      a' = a.withNames (assign a.names d n (some id))
  | .link id d n => a.names d n = none ∧ a' = a.withNames (assign a.names d n (some id))
  | .unlink d n => (∃ id, a.names d n = some id) ∧ a' = a.withNames (assign a.names d n none)
  | .rmdir d n => (∃ id, a.names d n = some id ∧ ∀ m, a.names id m = none) ∧
      a' = a.withNames (assign a.names d n none)
  | .rename p n q k => ∃ id, a.names p n = some id ∧
      ((a.names q k = some id ∧ a' = a) ∨
        (∀ old, a.names q k = some old → old ≠ id ∧ ∀ m, a.names old m = none) ∧
          a' = a.withNames (assign (assign a.names p n none) q k (some id)))
  | _ => a' = a

theorem withNames_of_named {a : FileSystem} {names : FileId → String → Option FileId} {id : FileId}
    (h : Named names id) : (a.withNames names).files id = a.files id := if_pos h

theorem withNames_of_not {a : FileSystem} {names : FileId → String → Option FileId} {id : FileId}
    (h : ¬ Named names id) : (a.withNames names).files id = none := if_neg h

theorem withNames_of_none {a : FileSystem} {names : FileId → String → Option FileId} {id : FileId}
    (h : a.files id = none) : (a.withNames names).files id = none := by
  by_cases hn : Named names id
  · rw [withNames_of_named hn, h]
  · exact withNames_of_not hn

/-- The outcomes of a run of calls, and where they lead. -/
inductive Admits : FileSystem → List (Op × Except Failure Reply) → FileSystem → Prop where
  | nil {a : FileSystem} : Admits a [] a
  | returned {a b c : FileSystem} {op : Op} {r : Reply} {rest : List (Op × Except Failure Reply)}
      (h : a.Step op r b) (hrest : Admits b rest c) : Admits a ((op, .ok r) :: rest) c
  | failed {a c : FileSystem} {op : Op} {e : Failure} {rest : List (Op × Except Failure Reply)}
      (hrest : Admits a rest c) : Admits a ((op, .error e) :: rest) c

end FileSystem

open FileSystem

/-! ## Names -/

namespace Inodes

variable {m : Inodes} {d id : FileId} {n : String} {i : Inode}

def names (m : Inodes) (d : FileId) (n : String) : Option FileId :=
  (m.get? d).bind fun i => i.children.get? n

theorem names_eq_some_iff {c : FileId} : m.names d n = some c ↔ m.HasEntry d n c :=
  Option.bind_eq_some_iff

/-- Two maps with the same entries have the same names. -/
theorem names_eq {m' : Inodes} {names : FileId → String → Option FileId}
    (h : ∀ d n c, m'.HasEntry d n c ↔ names d n = some c) : m'.names = names := by
  funext d n
  exact Option.ext fun c => names_eq_some_iff.trans (h d n c)

theorem names_of_dir {dir : Inode} (hd : m.get? d = some dir) :
    m.names d n = dir.children.get? n := by
  unfold names
  rw [hd]
  rfl

theorem names_putEntry (hd : m.get? d = some i) :
    (m.putEntry d n id).names = assign m.names d n (some id) := by
  refine names_eq fun d' n' c => ?_
  rw [hasEntry_putEntry hd]
  unfold assign
  split
  · exact ⟨fun h => by rw [h], fun h => (Option.some.inj h).symm⟩
  · exact names_eq_some_iff.symm

theorem names_cutEntry : (m.cutEntry d n).names = assign m.names d n none := by
  refine names_eq fun d' n' c => ?_
  rw [hasEntry_cutEntry]
  unfold assign
  split
  · next h => exact ⟨fun h' => absurd h h'.1, nofun⟩
  · next h => exact ⟨fun h' => names_eq_some_iff.mpr h'.2, fun h' => ⟨h, names_eq_some_iff.mp h'⟩⟩

theorem names_relink {f : Nat → Nat} : (m.relink id f).names = m.names :=
  names_eq fun _ _ _ => hasEntry_relink.trans names_eq_some_iff.symm

theorem names_reparent {p : FileId} : (m.reparent id p).names = m.names :=
  names_eq fun _ _ _ => hasEntry_reparent.trans names_eq_some_iff.symm

theorem names_erase (h : ∀ n c, ¬ m.HasEntry id n c) : Inodes.names (m.erase id) = m.names :=
  names_eq fun _ _ _ => (hasEntry_erase h).trans names_eq_some_iff.symm

theorem names_insert_fresh (hnone : m.get? id = none) (hi : i.children = OrdMap.empty) :
    Inodes.names (m.insert id i) = m.names :=
  names_eq fun _ _ _ => (hasEntry_insert_fresh hnone hi).trans names_eq_some_iff.symm

theorem names_moved {p q : FileId} {k : String} {dir : Inode} (hq : m.get? q = some dir) :
    (Vfs.moved m p n q k id).names = assign (assign m.names p n none) q k (some id) := by
  have hdir : ∃ dir', (m.cutEntry p n).get? q = some dir' := by
    unfold cutEntry
    rw [OrdMap.get?_adjust]
    split
    · exact ⟨_, by rw [hq]; rfl⟩
    · exact ⟨dir, hq⟩
  obtain ⟨dir', hdir⟩ := hdir
  unfold Vfs.moved
  split
  · rw [names_putEntry hdir, names_cutEntry]
  · rw [names_reparent, names_putEntry hdir, names_cutEntry]

theorem names_adopted {t : DirectoryTree} {p : FileId} :
    (Vfs.adopted t p id).names = t.inodes.names := by
  unfold Vfs.adopted
  split
  · split
    · exact names_reparent
    · rfl
  · rfl

/-- An empty inode has no names. -/
theorem no_entries (hi : m.get? id = some i) (hemp : i.children.isEmpty = true) (n : String)
    (c : FileId) : ¬ m.HasEntry id n c := by
  rintro ⟨j, hj, hc⟩
  rw [hi] at hj
  injection hj with hj
  rw [← hj, OrdMap.isEmpty_iff.mp hemp n] at hc
  cases hc

theorem names_none (h : ∀ c, ¬ m.HasEntry d n c) : m.names d n = none :=
  Option.eq_none_iff_forall_ne_some.mpr fun c hc => h c (names_eq_some_iff.mp hc)

end Inodes

theorem Frame.names {s s' : Vfs} (h : Frame s s') :
    s'.tree.inodes.names = s.tree.inodes.names :=
  Inodes.names_eq fun _ _ _ => (Inodes.hasEntry_congr h.nodes).trans Inodes.names_eq_some_iff.symm

/-- The file system that a state stands for. -/
def Vfs.fileSystem (s : Vfs) : FileSystem := ⟨s.tree.inodes.names, s.contents⟩

/-! ## The states -/

/-- A state whose files can be read: slots are owned once, every chunk opens,
and every byte of a file has a position. -/
structure Vfs.Readable (s : Vfs) : Prop where
  owned : Owned s
  intact : s.Intact
  range : ∀ f n, s.sizeOf f = some n → n + headerLen s.hideSize ≤ u64Max

namespace Vfs.Readable

variable {s s' : Vfs}

theorem withEnv (h : s.Readable) {env : Env} : (s.withEnv env).Readable :=
  ⟨h.owned.withEnv, h.intact, h.range⟩

/-- A path that overwrites no chunk. -/
theorem along {P : Permit} (h : s.Readable) (hP : ∀ id, ¬ P.inPlace id) (ha : Along P s s') :
    s'.Readable ∧ s'.fileSystem = s.fileSystem := by
  obtain ⟨f, c, hp, rfl⟩ := ha
  have hframe := Path.frame hp
  have hbroken : c.broken = [] := List.eq_nil_iff_forall_not_mem.mpr fun x hx =>
    hP x (Path.broken_granted hp (fun _ hy => absurd hy List.not_mem_nil) x hx)
  have hspares : ∀ g, c.Spares g := fun g => Cfg.spares_of_nil hbroken
  have hl := h.owned.ledger
  refine ⟨⟨h.owned.along ⟨f, c, hp, rfl⟩, ?_, ?_⟩, ?_⟩
  · have hc := Path.intactBut hp hl (intactBut_nil.mpr h.intact)
    rw [hbroken] at hc
    exact intactBut_nil.mp hc
  · intro g n hn
    rw [Path.sizeOf_kept hp hl (hspares g)] at hn
    rw [hframe.hideSize]
    exact h.range g n hn
  · have hnames : c.vfs.tree.inodes.names = s.tree.inodes.names := hframe.names
    have hfiles : c.vfs.contents = s.contents :=
      funext fun g => Path.contents_kept hp hl (hspares g)
    unfold fileSystem
    rw [hnames, hfiles]

/-- An edit of the namespace. -/
theorem edited (h : s.Readable) (hd : DataEdit s s') (ht : TreeInv s'.tree) : s'.Readable := by
  have hhide : s'.hideSize = s.hideSize := by
    unfold hideSize
    rw [hd.rest]
  refine ⟨⟨ht, hd.ledger h.owned.ledger⟩, edit_intact hd h.intact, fun g n hn => ?_⟩
  rw [hhide]
  cases hi' : s'.tree.inodes.get? g with
  | none =>
      unfold sizeOf at hn
      rw [hi'] at hn
      cases hn
  | some i' =>
      rcases hd.data_cases hi' with hdata | ⟨-, -, hnew⟩
      · rw [hd.sizeOf_of_data hdata] at hn
        exact h.range g n hn
      · unfold sizeOf at hn
        rw [hi', Option.bind_some, inodeSize_new hnew] at hn
        injection hn with hn
        rw [← hn]
        exact small_in_range (Nat.zero_le _)

end Vfs.Readable

/-! ## Edits -/

namespace DataEdit

variable {s s' : Vfs} {g : FileId}

/-- A file is there as long as it has a name. -/
theorem files (hd : DataEdit s s') (ht : TreeInv s.tree) (ht' : TreeInv s'.tree)
    (hnew : s.tree.inodes.get? g = none → s'.contents g = none) :
    s'.contents g = (s.fileSystem.withNames s'.tree.inodes.names).files g := by
  cases hi : s.tree.inodes.get? g with
  | none =>
      rw [hnew hi]
      exact (withNames_of_none (Vfs.contents_none hi)).symm
  | some i =>
      cases hi' : s'.tree.inodes.get? g with
      | none =>
          rw [Vfs.contents_none hi']
          refine (withNames_of_not ?_).symm
          rintro ⟨d, n, hn⟩
          obtain ⟨-, j, hj⟩ := ht'.ns.resolve d n g (Inodes.names_eq_some_iff.mp hn)
          rw [hi'] at hj
          cases hj
      | some i' =>
          rw [hd.contents_kept hi hi']
          by_cases hroot : g = rootId
          · -- the root has no name, and no contents either
            obtain ⟨r, hr, hk⟩ := ht.ns.root
            have hnone : s.contents g = none := by
              unfold Vfs.contents
              rw [hroot, hr, Option.bind_some, if_neg (by rw [hk]; exact nofun)]
            rw [hnone]
            exact (withNames_of_none hnone).symm
          · obtain ⟨d, n, hn⟩ := ht'.ns.exists_entry hi' hroot
            exact (withNames_of_named (a := s.fileSystem)
              ⟨d, n, Inodes.names_eq_some_iff.mpr hn⟩).symm

/-- No inode is new where no id was taken. -/
theorem no_new (hd : DataEdit s s') (ht' : TreeInv s'.tree)
    (hnext : s'.tree.nextFileId = s.tree.nextFileId) (hnone : s.tree.inodes.get? g = none) :
    s'.tree.inodes.get? g = none := by
  cases hi' : s'.tree.inodes.get? g with
  | none => rfl
  | some i' =>
      rcases hd.data_cases hi' with hdata | ⟨hg, -, -⟩
      · rw [hi', hnone] at hdata
        cases hdata
      · have hlt := ht'.fresh g i' hi'
        rw [hnext, ← hg] at hlt
        exact absurd hlt (Nat.lt_irrefl g)

theorem fileSystem (hd : DataEdit s s') (ht : TreeInv s.tree) (ht' : TreeInv s'.tree)
    (hnext : s'.tree.nextFileId = s.tree.nextFileId)
    {names : FileId → String → Option FileId} (hnames : s'.tree.inodes.names = names) :
    s'.fileSystem = s.fileSystem.withNames names := by
  have hfiles : s'.contents = (s.fileSystem.withNames s'.tree.inodes.names).files :=
    funext fun g => hd.files ht ht' fun hnone => Vfs.contents_none (hd.no_new ht' hnext hnone)
  unfold Vfs.fileSystem
  rw [hfiles, hnames]
  rfl

end DataEdit

namespace Vfs

variable {s s' : Vfs}

/-- A new inode: it is nowhere to be seen before, and all other files stay. -/
theorem Entered.fileSystem (ht : TreeInv s.tree) {parent id : FileId} {name : String}
    {node : FileId → Nat → Inode} (hs : Entered s parent name node id s')
    (hnew : ∀ n now, (node n now).data.IsNew) :
    s.fileSystem.names parent name = none ∧ ¬ Named s.fileSystem.names id ∧
      s'.fileSystem.names = assign s.fileSystem.names parent name (some id) ∧
      (∃ i, s'.tree.inodes.get? id = some i ∧ i.kind = (node id s.container.env.nowNs).kind ∧
        i.data.IsNew) ∧
      ∀ g, g ≠ id → s'.contents g = (s.fileSystem.withNames s'.fileSystem.names).files g := by
  have hd : DataEdit s s' := DataEdit.entered ht hs hnew
  have ht' : TreeInv s'.tree := ht.entered hs
  obtain ⟨rfl, hs', -, hnode, -, -, dir, hdir, -, hname⟩ := hs
  have hfresh : s.tree.inodes.get? s.tree.nextFileId = none := by
    cases hg : s.tree.inodes.get? s.tree.nextFileId with
    | none => rfl
    | some i => exact absurd (ht.fresh _ i hg) (Nat.lt_irrefl _)
  have hne : s.tree.nextFileId ≠ parent := by
    intro he
    rw [he, hdir] at hfresh
    cases hfresh
  have hinodes : s'.tree.inodes = Inodes.putEntry (s.tree.inodes.insert s.tree.nextFileId
      (node s.tree.nextFileId s.container.env.nowNs)) parent name s.tree.nextFileId := by
    rw [hs']
    rfl
  have hpdir : (s.tree.inodes.insert s.tree.nextFileId
      (node s.tree.nextFileId s.container.env.nowNs)).get? parent = some dir := by
    rw [OrdMap.get?_insert_of_ne hne.symm, hdir]
  refine ⟨?_, ?_, ?_, ?_, fun g hg => hd.files ht ht' fun hnone => ?_⟩
  · exact (Inodes.names_of_dir hdir).trans hname
  · rintro ⟨d, n, hn⟩
    obtain ⟨-, j, hj⟩ := ht.ns.resolve d n _ (Inodes.names_eq_some_iff.mp hn)
    rw [hfresh] at hj
    cases hj
  · show s'.tree.inodes.names = assign s.tree.inodes.names _ _ _
    rw [hinodes, Inodes.names_putEntry hpdir, Inodes.names_insert_fresh hfresh (hnode.children _ _)]
  · have hget : s'.tree.inodes.get? s.tree.nextFileId =
        some (node s.tree.nextFileId s.container.env.nowNs) := by
      rw [hinodes]
      unfold Inodes.putEntry
      rw [OrdMap.get?_adjust_of_ne hne, OrdMap.get?_insert_self]
    exact ⟨_, hget, rfl, hnew _ _⟩
  · refine contents_none ?_
    rw [hinodes]
    unfold Inodes.putEntry
    rw [OrdMap.get?_adjust, OrdMap.get?_insert, if_neg hg, hnone]
    split
    · rfl
    · rfl

/-- An inode that is no file. -/
theorem Entered.fileSystem_eq (ht : TreeInv s.tree) {parent id : FileId} {name : String}
    {node : FileId → Nat → Inode} (hs : Entered s parent name node id s')
    (hnew : ∀ n now, (node n now).data.IsNew) (hk : ∀ n now, (node n now).kind ≠ .file) :
    s.fileSystem.names parent name = none ∧ ¬ Named s.fileSystem.names id ∧
      s'.fileSystem =
        s.fileSystem.withNames (assign s.fileSystem.names parent name (some id)) := by
  obtain ⟨hfree, hun, hnames, ⟨i, hi, hkind, -⟩, hother⟩ := hs.fileSystem ht hnew
  refine ⟨hfree, hun, ?_⟩
  have hnone : s.contents id = none := by
    cases hc : s.contents id with
    | none => rfl
    | some bs =>
        obtain ⟨j, n, hj, -⟩ := exists_of_contents hc
        have hlt := ht.fresh id j hj
        rw [hs.1] at hlt
        exact absurd hlt (Nat.lt_irrefl _)
  have hfiles : s'.contents = (s.fileSystem.withNames s'.fileSystem.names).files := by
    funext g
    by_cases hg : g = id
    · subst hg
      rw [withNames_of_none hnone]
      unfold contents
      rw [hi, Option.bind_some, if_neg (by rw [hkind]; exact hk _ _)]
    · exact hother g hg
  rw [← hnames]
  show FileSystem.mk s'.fileSystem.names s'.contents = _
  rw [hfiles]
  rfl

theorem Entered.fileSystem_file (ht : TreeInv s.tree) {parent id : FileId} {name : String} {mode : Nat}
    (hs : Entered s parent name (newFile parent mode) id s') :
    s.fileSystem.names parent name = none ∧ ¬ Named s.fileSystem.names id ∧
      s'.fileSystem =
        (s.fileSystem.withNames (assign s.fileSystem.names parent name (some id))).withFile id []
    := by
  obtain ⟨hfree, hun, hnames, ⟨i, hi, hkind, hdata⟩, hother⟩ :=
    hs.fileSystem ht fun _ _ => ⟨rfl, rfl, rfl, fun _ => rfl⟩
  refine ⟨hfree, hun, ?_⟩
  have hsize : s'.sizeOf id = some 0 := by
    unfold sizeOf
    rw [hi]
    exact inodeSize_new hdata
  have hfiles : s'.contents = Function.update
      (s.fileSystem.withNames s'.fileSystem.names).files id (some []) := by
    funext g
    by_cases hg : g = id
    · subst hg
      rw [Function.update_self, contents_of_get? hi hkind hsize]
      rfl
    · rw [Function.update_of_ne hg]
      exact hother g hg
  rw [← hnames]
  show FileSystem.mk s'.fileSystem.names s'.contents = _
  rw [hfiles]
  rfl

theorem Linked.fileSystem (ht : TreeInv s.tree) {id d : FileId} {n : String}
    (hs : Linked s id d n s') : s.fileSystem.names d n = none ∧
      s'.fileSystem = s.fileSystem.withNames (assign s.fileSystem.names d n (some id)) := by
  have hd : DataEdit s s' := @Edited.dataEdit s s' ht (.link id d n) hs
  have ht' : TreeInv s'.tree := ht.linked hs
  obtain ⟨target, dir, -, -, -, hdir, -, hname, rfl⟩ := hs
  refine ⟨(Inodes.names_of_dir hdir).trans hname, hd.fileSystem ht ht' rfl ?_⟩
  show (Inodes.relink _ _ _).names = _
  rw [Inodes.names_relink, Inodes.names_putEntry hdir]
  rfl

theorem Unlinked.fileSystem (ht : TreeInv s.tree) {d : FileId} {n : String} (hs : Unlinked s d n s') :
    (∃ id, s.fileSystem.names d n = some id) ∧
      s'.fileSystem = s.fileSystem.withNames (assign s.fileSystem.names d n none) := by
  have hd : DataEdit s s' := DataEdit.unlinked hs
  have ht' : TreeInv s'.tree := ht.unlinked hs
  obtain ⟨dir, id, target, hdir, -, hname, htarget, hkind, hcase⟩ := hs
  refine ⟨⟨id, (Inodes.names_of_dir hdir).trans hname⟩, ?_⟩
  rcases hcase with ⟨-, rfl⟩ | ⟨-, rfl⟩
  · refine hd.fileSystem ht ht' rfl ?_
    show Inodes.names (OrdMap.erase (s.tree.inodes.cutEntry d n) id) = _
    have hleaf := Inodes.no_entries htarget (ht.ns.leaf id target htarget hkind)
    rw [Inodes.names_erase fun m c hc => hleaf m c (Inodes.hasEntry_cutEntry.mp hc).2,
      Inodes.names_cutEntry]
    rfl
  · refine hd.fileSystem ht ht' rfl ?_
    show (adopted _ d id).names = _
    rw [Inodes.names_adopted, Inodes.names_relink, Inodes.names_cutEntry]
    rfl

theorem Rmdired.fileSystem (ht : TreeInv s.tree) {d : FileId} {n : String} (hs : Rmdired s d n s') :
    (∃ id, s.fileSystem.names d n = some id ∧ ∀ m, s.fileSystem.names id m = none) ∧
      s'.fileSystem = s.fileSystem.withNames (assign s.fileSystem.names d n none) := by
  have hd : DataEdit s s' := DataEdit.rmdired hs
  have ht' : TreeInv s'.tree := ht.rmdired hs
  obtain ⟨dir, id, target, hdir, -, hname, htarget, -, hemp, rfl⟩ := hs
  have hleaf := Inodes.no_entries htarget hemp
  refine ⟨⟨id, (Inodes.names_of_dir hdir).trans hname, fun m => Inodes.names_none (hleaf m)⟩,
    hd.fileSystem ht ht' rfl ?_⟩
  show Inodes.names (OrdMap.erase (s.tree.inodes.cutEntry d n) id) = _
  rw [Inodes.names_erase fun m c hc => hleaf m c (Inodes.hasEntry_cutEntry.mp hc).2,
    Inodes.names_cutEntry]
  rfl

theorem Renamed.fileSystem (ht : TreeInv s.tree) {p q : FileId} {n k : String}
    (hs : Renamed s p n q k s') :
    ∃ id, s.fileSystem.names p n = some id ∧
      ((s.fileSystem.names q k = some id ∧ s'.fileSystem = s.fileSystem) ∨
        (∀ old, s.fileSystem.names q k = some old → old ≠ id ∧
            ∀ m, s.fileSystem.names old m = none) ∧
          s'.fileSystem = s.fileSystem.withNames
            (assign (assign s.fileSystem.names p n none) q k (some id))) := by
  have hd : DataEdit s s' := DataEdit.renamed hs
  have ht' : TreeInv s'.tree := @treeInv_edited s ht (.rename p n q k) s' hs
  rcases hs with ⟨rfl, id, hp, hq⟩ | ⟨dir, id, hp, hq, -, -, hcase⟩
  · exact ⟨id, Inodes.names_eq_some_iff.mpr hp, .inl ⟨Inodes.names_eq_some_iff.mpr hq, rfl⟩⟩
  have hold : s.fileSystem.names q k = dir.children.get? k := Inodes.names_of_dir hq
  refine ⟨id, Inodes.names_eq_some_iff.mpr hp, .inr ?_⟩
  rcases hcase with ⟨hfree, rfl⟩ | ⟨dst, target, hdst, hne, htarget, hemp, hcase⟩
  · refine ⟨fun old ho => ?_, hd.fileSystem ht ht' rfl (Inodes.names_moved hq)⟩
    rw [hold, hfree] at ho
    cases ho
  · have hleaf := Inodes.no_entries htarget hemp
    refine ⟨fun old ho => ?_, ?_⟩
    · rw [hold, hdst] at ho
      injection ho with ho
      subst ho
      exact ⟨hne, fun m => Inodes.names_none (hleaf m)⟩
    -- the directory of the new name is not the one displaced
    have hqd : q ≠ dst := by
      rintro rfl
      exact hleaf k q ⟨dir, hq, hdst⟩
    rcases hcase with ⟨-, rfl⟩ | ⟨-, rfl⟩
    · refine hd.fileSystem ht ht' rfl ?_
      show (moved (s.tree.inodes.erase dst) p n q k id).names = _
      have hq' : (s.tree.inodes.erase dst).get? q = some dir := by
        rw [OrdMap.get?_erase_of_ne hqd, hq]
      rw [Inodes.names_moved hq', Inodes.names_erase hleaf]
      rfl
    · refine hd.fileSystem ht ht' rfl ?_
      show (moved (s.tree.inodes.relink dst _) p n q k id).names = _
      have hq' : (s.tree.inodes.relink dst (· - 1)).get? q = some dir := by
        unfold Inodes.relink
        rw [OrdMap.get?_adjust_of_ne hqd, hq]
      rw [Inodes.names_moved hq', Inodes.names_relink]
      rfl

theorem AttrSet.fileSystem {id : FileId} {f : Inode → Inode}
    (hs : AttrSet s id f s') (ht' : TreeInv s'.tree) (hd : DataEdit s s')
    (hf : ∀ i, (f i).children = i.children) : s'.fileSystem = s.fileSystem := by
  obtain ⟨i, hi, rfl⟩ := hs
  have hnames : Inodes.names (s.tree.inodes.adjust id f) = s.tree.inodes.names :=
    Inodes.names_eq fun _ _ _ => (Inodes.hasEntry_adjust hf).trans Inodes.names_eq_some_iff.symm
  have hfiles : (s.edited (s.tree.inodes.adjust id f)).contents = s.contents := by
    funext g
    cases hg : s.tree.inodes.get? g with
    | none =>
        rw [contents_none hg, contents_none (hd.no_new ht' rfl hg)]
    | some j =>
        obtain ⟨j', hj'⟩ : ∃ j', (s.edited (s.tree.inodes.adjust id f)).tree.inodes.get? g =
            some j' := by
          show ∃ j', (s.tree.inodes.adjust id f).get? g = some j'
          rw [OrdMap.get?_adjust, hg]
          split
          · exact ⟨_, rfl⟩
          · exact ⟨_, rfl⟩
        exact hd.contents_kept hg hj'
  show FileSystem.mk _ _ = FileSystem.mk _ _
  rw [hfiles]
  exact congrArg (FileSystem.mk · s.contents) hnames

/-! ## Calls -/

theorem names_replaced (s : Vfs) {f : FileId} {refs : List ChunkRef} {newReal : Nat}
    {freed : List ChunkId} :
    (s.replaced f refs newReal freed).tree.inodes.names = s.tree.inodes.names := by
  refine Inodes.names_eq fun _ _ _ => (Inodes.hasEntry_adjust ?_).trans
    Inodes.names_eq_some_iff.symm
  intro _
  rfl

theorem names_final {p : Plan} {f : FileId} {c₀ c : Cfg} {oldReal newReal : Nat}
    {base refs : List ChunkRef} {retired freed : List ChunkId} {content : Nat → Option Chunk}
    (hb : Begun p.permit f s c₀ oldReal) (hsees : Sees p f c₀ base c refs retired content) :
    (c.vfs.replaced f refs newReal freed).tree.inodes.names = s.tree.inodes.names := by
  obtain ⟨pts, hview, -⟩ := hsees
  exact (names_replaced _).trans ((Path.frame hview.path).names.trans (Path.frame hb.path).names)

/-- The end of a call that rewrote chunks of `f`. -/
theorem Readable.replaced (h : s.Readable) {p : Plan} {f : FileId} {c₀ c : Cfg} {oldReal newReal : Nat}
    {i : Inode} {base refs : List ChunkRef} {retired freed : List ChunkId}
    {content : Nat → Option Chunk} (hb : Begun p.permit f s c₀ oldReal)
    (hbase : Base f c₀ base) (hi : c₀.vfs.tree.inodes.get? f = some i) (hk : i.kind = .file)
    (hsub : ∀ (idx : Nat) (r : ChunkRef), base[idx]? = some r → i.chunks[idx]? = some r)
    (hsees : Sees p f c₀ base c refs retired content)
    (hnew : newReal + headerLen s.hideSize ≤ u64Max)
    (ho : Owned (c.vfs.replaced f refs newReal freed)) :
    (c.vfs.replaced f refs newReal freed).Readable := by
  obtain ⟨pts, hview, -⟩ := hsees
  have hl := h.owned.ledger
  have hl₀ := hl.path hb.path
  have hpath := hview.path
  have h₀ := hb.intact hl h.intact
  have hnil := intactBut_nil.mpr h₀
  rw [← hb.broken] at hnil
  have hhide : (c.vfs.replaced f refs newReal freed).hideSize = s.hideSize :=
    (Path.frame hpath).hideSize.trans (Path.frame hb.path).hideSize
  refine ⟨ho, replaced_intact hbase hview hi hsub h₀ (Path.intactBut hpath hl₀ hnil),
    fun g n hn => ?_⟩
  rw [hhide]
  by_cases hgf : g = f
  · subst hgf
    obtain ⟨i', hi', hbare⟩ := (Path.frame hpath).inode hi
    rw [sizeOf_replaced hi' (Inode.bare_kind hbare ▸ hk)] at hn
    injection hn with hn
    exact hn ▸ hnew
  · rw [sizeOf_replaced_of_ne hgf, Path.sizeOf_kept hpath hl₀ (Path.spares hpath hl₀ hb.broken hgf),
      Path.sizeOf_kept hb.path hl (Cfg.spares_of_nil hb.broken)] at hn
    exact h.range g n hn

theorem Readable.written (h : s.Readable) {p : Plan} {f : FileId} {offset : Nat} {buf : List UInt8}
    {c₀ : Cfg} {oldReal : Nat} {i : Inode} {count : Nat} {c : Cfg} {refs : List ChunkRef}
    {retired : List ChunkId} (hw : Written p f s offset buf c₀ oldReal i count c refs retired s') :
    s'.Readable ∧ ∃ bs, s.fileSystem.files f = some bs ∧
      s'.fileSystem = s.fileSystem.withFile f (overwrite bs offset buf) := by
  have hold := h.range f oldReal hw.begun.size
  have hl := h.owned.ledger
  have hbase : Base f c₀ i.chunks := by
    have := @Begun.base p.permit f s c₀ oldReal i.chunks.length i hw.begun hl hw.inode
    rwa [List.take_length] at this
  have ho := h.owned.written hw
  refine ⟨?_, ?_⟩
  · rw [hw.final] at ho ⊢
    exact h.replaced hw.begun hbase hw.inode hw.file (fun _ _ hr => hr) hw.sees
      (grown_in_range hold hw.small) ho
  · obtain ⟨bs, hbs, hafter⟩ := written_contents hl h.intact hold hw
    refine ⟨bs, hbs, ?_⟩
    have hnames : s'.tree.inodes.names = s.tree.inodes.names := by
      rw [hw.final]
      exact names_final hw.begun hw.sees
    unfold Vfs.fileSystem
    rw [hnames, hafter]
    rfl

theorem Readable.truncated (h : s.Readable) {p : Plan} {f : FileId} {newSize : Nat} {c₀ : Cfg}
    {oldReal : Nat} {i : Inode} {count : Nat} {c : Cfg} {refs : List ChunkRef}
    {retired : List ChunkId} (hw : Truncated p f s newSize c₀ oldReal i count c refs retired s') :
    s'.Readable ∧ ∃ bs, s.fileSystem.files f = some bs ∧
      s'.fileSystem = s.fileSystem.withFile f (resize bs newSize) := by
  have hl := h.owned.ledger
  have hbase := @Begun.base p.permit f s c₀ oldReal count i hw.begun hl hw.inode
  have ho := h.owned.truncated hw
  refine ⟨?_, ?_⟩
  · rw [hw.final] at ho ⊢
    refine h.replaced hw.begun hbase hw.inode hw.file (fun idx r hr => ?_) hw.sees
      (small_in_range hw.small) ho
    rw [List.getElem?_take] at hr
    split at hr
    · exact hr
    · cases hr
  · obtain ⟨bs, hbs, hafter⟩ := truncated_contents hl hw
    refine ⟨bs, hbs, ?_⟩
    have hnames : s'.tree.inodes.names = s.tree.inodes.names := by
      rw [hw.final]
      exact names_final hw.begun hw.sees
    unfold Vfs.fileSystem
    rw [hnames, hafter]
    rfl

/-- What a lookup or a listing finds. -/
theorem lookup_names {d : FileId} {n : String} :
    wp (lookup d n) (fun id s' => s' = s ∧ s.fileSystem.names d n = some id) (fun _ _ => True) s := by
  unfold lookup
  rw [wp_bind, wp_requireDir]
  refine ⟨fun dir hdir => ⟨fun _ => trivial, fun _ => ?_⟩, fun _ => trivial⟩
  rw [wp_orThrow]
  exact ⟨fun id hid => ⟨rfl, (Inodes.names_of_dir hdir).trans hid⟩, fun _ => trivial⟩

theorem readdir_names {d : FileId} :
    wp (readdir d) (fun es s' => s' = s ∧
      ∀ n id, (∃ e ∈ es, e.name = n ∧ e.id = id) ↔ s.fileSystem.names d n = some id)
      (fun _ _ => True) s := by
  unfold readdir
  rw [wp_bind, wp_requireDir]
  refine ⟨fun dir hdir => ⟨fun _ => trivial, fun _ => ?_⟩, fun _ => trivial⟩
  rw [wp_bind, wp_get, wp_pure]
  refine ⟨rfl, fun n id => ?_⟩
  have hname : s.fileSystem.names d n = dir.children.get? n := Inodes.names_of_dir hdir
  rw [hname, OrdMap.get?_eq_some_iff]
  constructor
  · rintro ⟨e, he, rfl, rfl⟩
    obtain ⟨entry, hentry, rfl⟩ := List.mem_map.mp he
    exact hentry
  · intro hentry
    exact ⟨_, List.mem_map_of_mem hentry, rfl, rfl⟩

/-- A call that only looks, or only settles what is there. -/
theorem Readable.still (h : s.Readable) (ha : Along Plan.whole.permit s s') :
    s'.Readable ∧ s'.fileSystem = s.fileSystem := h.along (fun _ => id) ha

/-- What is behind a reply. -/
theorem exists_of_map {α β : Type} {g : α → β} {m : VfsM α} {r : β}
    (h : (g <$> m) s = .ok r s') : ∃ a, m s = .ok a s' ∧ r = g a := by
  have hspec : wp (g <$> m) (fun r s' => ∃ a, m s = .ok a s' ∧ r = g a) (fun _ _ => True) s := by
    rw [wp_map]
    unfold wp
    cases hm : m s with
    | ok a s₁ => exact ⟨a, rfl, rfl⟩
    | error e s₁ => trivial
  exact wp_ok hspec h

/-- An edit that returned. -/
theorem exec_edit_step (ht : TreeInv s.tree) {op : Op} (hop : op.isEdit = true) {r : Reply}
    (hrun : exec op s = .ok r s') : s.fileSystem.Step op r s'.fileSystem := by
  have hspec := exec_edit_spec ht hop
  have hedit := wp_ok hspec hrun
  have hd := Edited.dataEdit ht hedit
  have ht' := treeInv_edited ht hedit
  cases op with
  | mkdir d n =>
      obtain ⟨id, hid, rfl⟩ := exists_of_map hrun
      have hs := wp_ok (mkdir_spec ht) hid
      exact ⟨id, rfl, hs.fileSystem_eq ht (fun _ _ => ⟨rfl, rfl, rfl, nofun⟩) fun _ _ => nofun⟩
  | create d n mode =>
      obtain ⟨id, hid, rfl⟩ := exists_of_map hrun
      have hs := wp_ok (createWithMode_spec ht) hid
      exact ⟨id, rfl, hs.fileSystem_file ht⟩
  | symlink d n target =>
      obtain ⟨id, hid, rfl⟩ := exists_of_map hrun
      have hs := wp_ok (symlink_spec ht) hid
      exact ⟨id, rfl, hs.fileSystem_eq ht (fun _ _ => ⟨rfl, rfl, rfl, nofun⟩) fun _ _ => nofun⟩
  | link id d n => exact Linked.fileSystem ht hedit
  | unlink d n => exact Unlinked.fileSystem ht hedit
  | rmdir d n => exact Rmdired.fileSystem ht hedit
  | rename p n q k => exact Renamed.fileSystem ht hedit
  | chmod id mode => exact AttrSet.fileSystem hedit ht' hd fun _ => rfl
  | setMtime id mtimeNs => exact AttrSet.fileSystem hedit ht' hd fun _ => rfl
  | _ => cases hop

theorem Readable.step_edit (h : s.Readable) {op : Op} (hop : op.isEdit = true) {r : Reply}
    (hrun : exec op s = .ok r s') :
    s'.Readable ∧ s.fileSystem.Step op r s'.fileSystem := by
  have ht := h.owned.tree
  have hspec := exec_edit_spec ht hop
  have hedit := wp_ok hspec hrun
  exact ⟨h.edited (Edited.dataEdit ht hedit) (treeInv_edited ht hedit),
    exec_edit_step ht hop hrun⟩

/-- What is read is a slice of the file. -/
theorem HasRead.slice {f : FileId} {off len : Nat} {d : Nat × List UInt8}
    (hread : HasRead ⟨[], [], s⟩ f off len d) : ∃ bs, s.fileSystem.files f = some bs ∧
      Reply.data d.1 d.2 = .data (slice bs off len).length (slice bs off len) := by
  obtain ⟨n, i, hn, hi, hk, hcount, hbytes⟩ := hread
  refine ⟨_, contents_of_get? hi hk hn, ?_⟩
  have hslice : ByteFile.slice (fileBytes (s.chunkAt f i.chunks) s.hideSize 0 n) off len = d.2 := by
    rw [slice_fileBytes, ← hcount, hbytes]
  rw [hslice, hbytes, fileBytes_length]

/-- A local call that returned does what its step says. -/
theorem Readable.step_ok (h : s.Readable) {op : Op} (hop : op.isLocal = true) {r : Reply}
    (hrun : exec op s = .ok r s') :
    s'.Readable ∧ s.fileSystem.Step op r s'.fileSystem := by
  have ht := h.owned.tree
  have hl := h.owned.ledger
  have hdone : ∀ {p : Plan}, op.Granted p s → Done p s op r s' := fun hg =>
    wp_ok (exec_spec ht hl hop hg) hrun
  have hsame : s' = s → s'.Readable ∧ s'.fileSystem = s.fileSystem := fun he => by
    rw [he]
    exact ⟨h, rfl⟩
  cases hedit : op.isEdit with
  | true => exact h.step_edit hedit hrun
  | false =>
      cases op with
      | lookup d n =>
          obtain ⟨id, hid, rfl⟩ := exists_of_map hrun
          obtain ⟨he, hname⟩ := wp_ok lookup_names hid
          obtain ⟨hr, hfs⟩ := hsame he
          exact ⟨hr, hfs, id, rfl, hname⟩
      | readdir d =>
          obtain ⟨es, hes, rfl⟩ := exists_of_map hrun
          obtain ⟨he, hnames⟩ := wp_ok readdir_names hes
          obtain ⟨hr, hfs⟩ := hsame he
          exact ⟨hr, hfs, es, rfl, hnames⟩
      | stat f =>
          obtain ⟨c, st, hp, rfl, rfl, ⟨i, -, hsize, -⟩, -⟩ := @hdone Plan.whole trivial
          obtain ⟨hr, hfs⟩ := h.still ⟨f, c, hp, rfl⟩
          refine ⟨hr, hfs, st, rfl, fun bs hbs => ?_⟩
          obtain ⟨j, n, -, -, hn, rfl⟩ := exists_of_contents hbs
          rw [fileBytes_length]
          exact Option.some.inj (hsize.symm.trans hn)
      | read f off len =>
          obtain ⟨c, d, hp, rfl, rfl, hread, -⟩ := @hdone Plan.whole trivial
          obtain ⟨hr, hfs⟩ := h.still ⟨f, c, hp, rfl⟩
          exact ⟨hr, hfs, hread.slice⟩
      | write f off buf =>
          obtain ⟨n, hn, rfl⟩ := exists_of_map hrun
          obtain ⟨rfl, hcase⟩ := wp_ok (write_spec hl (@granted_any s (.write f off buf))) hn
          rcases hcase with ⟨hnil, he⟩ | ⟨c₀, oldReal, i, count, c, refs, retired, hw⟩
          · obtain ⟨hr, hfs⟩ := hsame he
            exact ⟨hr, rfl, .inl ⟨hnil, hfs⟩⟩
          · obtain ⟨hr, hbs⟩ := h.written hw
            exact ⟨hr, rfl, .inr hbs⟩
      | truncate f n =>
          obtain ⟨c₀, oldReal, i, count, c, refs, retired, hw⟩ := @hdone Plan.any granted_any
          exact h.truncated hw
      | flush =>
          obtain ⟨c, hp, rfl, -⟩ := @hdone Plan.whole trivial
          exact h.still ⟨0, c, hp, rfl⟩
      | setMaxVaultSize bytes =>
          rcases @hdone Plan.whole trivial with he | ⟨-, he⟩
          · exact hsame he
          · rw [he]
            exact ⟨⟨⟨h.owned.tree, h.owned.ledger.of_le (fun _ => le_refl _) (le_refl _)⟩,
              h.intact, h.range⟩, rfl⟩
      | setShrinkMode mode =>
          have he : s' = { s with shrinkMode := mode } := @hdone Plan.whole trivial
          rw [he]
          exact ⟨⟨⟨h.owned.tree, h.owned.ledger.of_le (fun _ => le_refl _) (le_refl _)⟩,
            h.intact, h.range⟩, rfl⟩
      | spaceReport =>
          obtain ⟨env, he⟩ := @hdone Plan.whole trivial
          rw [he]
          exact ⟨h.withEnv, rfl⟩
      | parentOf id => exact hsame (@hdone Plan.whole trivial)
      | readlink id => exact hsame (@hdone Plan.whole trivial)
      | shrink => cases hop
      | shrinkAllowDeniable => cases hop
      | finish => cases hop
      | reopen => cases hop
      | _ => cases hedit

/-- A call that is no edit leaves the names alone, whatever it has rewritten. -/
theorem Done.names {p : Plan} {op : Op} {r : Reply} (hd : Done p s op r s')
    (hlocal : op.isLocal = true) (hop : op.isEdit = false) :
    s'.fileSystem.names = s.fileSystem.names := by
  cases op with
  | lookup d n => rw [show s' = s from hd]
  | readdir d => rw [show s' = s from hd]
  | parentOf id => rw [show s' = s from hd]
  | readlink id => rw [show s' = s from hd]
  | stat f =>
      obtain ⟨c, st, hp, rfl, -⟩ := hd
      exact (Path.frame hp).names
  | read f off len =>
      obtain ⟨c, d, hp, rfl, -⟩ := hd
      exact (Path.frame hp).names
  | write f off buf =>
      rcases hd with ⟨-, rfl⟩ | ⟨c₀, oldReal, i, count, c, refs, retired, hw⟩
      · rfl
      · rw [hw.final]
        exact names_final hw.begun hw.sees
  | truncate f n =>
      obtain ⟨c₀, oldReal, i, count, c, refs, retired, hw⟩ := hd
      rw [hw.final]
      exact names_final hw.begun hw.sees
  | flush =>
      obtain ⟨c, hp, rfl, -⟩ := hd
      exact (Path.frame hp).names
  | setMaxVaultSize bytes =>
      rcases hd with rfl | ⟨-, rfl⟩
      · rfl
      · rfl
  | setShrinkMode mode => rw [show s' = { s with shrinkMode := mode } from hd]; rfl
  | spaceReport =>
      obtain ⟨env, rfl⟩ := hd
      rfl
  | shrink => cases hlocal
  | shrinkAllowDeniable => cases hlocal
  | finish => cases hlocal
  | reopen => cases hlocal
  | _ => cases hop

/-- A call that failed and rewrote none of its chunks in place does nothing. -/
theorem Readable.step_error (h : s.Readable) {op : Op} (hop : op.isLocal = true)
    (hspare : op.Spares s) {e : Failure} (hrun : exec op s = .error e s') :
    s'.Readable ∧ s'.fileSystem = s.fileSystem := by
  have hspec := exec_spec h.owned.tree h.owned.ledger hop (granted_of_spares hspare)
  have hgave := wp_error hspec hrun
  exact h.along (fun _ => id) hgave.2

end Vfs

end Luksbox
