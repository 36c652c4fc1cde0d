import Luksbox.Lib.Keeps
import Luksbox.Proofs.CaseNames

/-!
# A Windows volume

The VFS does not ask its names to be free of case, and other mounts break it.
The callbacks of a Windows mount keep it (`Neat`), whatever they return: what
they add is new in every case, or takes the place of the name it differs from in
case only. Each does to the volume what its `Step` says; one that fails does
nothing, except that a `create` can fail when its file is already made.
-/

namespace Luksbox

open Lib FileSystem

variable {upper : Char → List Char}

/-! ## What a call of the VFS does -/

/-- A state between calls whose names are one for each up to case. -/
def Neat (upper : Char → List Char) (s : Vfs) : Prop :=
  Owned s ∧ CaseFree upper s.fileSystem.names

/-- A neat state that shows this volume. -/
def Shows (upper : Char → List Char) (v : Volume) (s : Vfs) : Prop :=
  Neat upper s ∧ s.volume upper = v

theorem WinFsp.onHandle_local {op : Op} (h : onHandle op = true) : op.isLocal = true := by
  cases op with
  | shrink => cases h
  | shrinkAllowDeniable => cases h
  | finish => cases h
  | reopen => cases h
  | _ => rfl

/-- The edits among them set an attribute. -/
theorem FileSystem.Step.names {a a' : FileSystem} {op : Op} {r : Reply} (h : a.Step op r a')
    (hedit : op.isEdit = true) (hop : WinFsp.onHandle op = true) : a'.names = a.names := by
  cases op with
  | chmod id mode => exact congrArg FileSystem.names h
  | setMtime id mtimeNs => exact congrArg FileSystem.names h
  | mkdir d n => cases hop
  | create d n mode => cases hop
  | symlink d n target => cases hop
  | link id d n => cases hop
  | unlink d n => cases hop
  | rmdir d n => cases hop
  | rename p n q k => cases hop
  | _ => cases hedit

theorem Moves.root {p : Plan} {s s' : Vfs} (h : Moves p s s') : s'.tree.root = s.tree.root := by
  cases h with
  | edit hd ht => rw [hd.rest]
  | along ha =>
      obtain ⟨f, c, hp, rfl⟩ := ha
      exact (Path.frame hp).root
  | write hw =>
      obtain ⟨pts, hview, -⟩ := hw.sees
      rw [hw.final]
      exact (Path.frame hview.path).root.trans (Path.frame hw.begun.path).root
  | truncate hw =>
      obtain ⟨pts, hview, -⟩ := hw.sees
      rw [hw.final]
      exact (Path.frame hview.path).root.trans (Path.frame hw.begun.path).root
  | settings m d k heq hd => rw [heq]

theorem Vfs.volume_eq {s s' : Vfs} (hroot : s'.tree.root = s.tree.root)
    (hnames : s'.fileSystem.names = s.fileSystem.names) : s'.volume upper = s.volume upper := by
  unfold Vfs.volume
  rw [hroot, hnames]

namespace Neat

variable {s : Vfs} {d p q : FileId} {n k : String}

/-- A call that returns leaves what it does to the names, and one that fails
leaves the names: it is a path, wherever it stopped. -/
theorem exec (h : Neat upper s) {op : Op} (hop : op.isLocal = true)
    (hnames : ∀ r s', Vfs.exec op s = .ok r s' → CaseFree upper s'.fileSystem.names) :
    wp (Vfs.exec op)
      (fun r s' => Neat upper s' ∧ s'.tree.root = s.tree.root ∧ Vfs.exec op s = .ok r s')
      (fun _ s' => Shows upper (s.volume upper) s') s := by
  have hspec := Vfs.exec_spec h.1.tree h.1.ledger hop granted_any
  refine wp_intro (fun r s' hok => ?_) fun e s' herr => ?_
  · have hdone := wp_ok hspec hok
    have hmoves := hdone.moves h.1.tree hop
    exact ⟨⟨h.1.moves hmoves, hnames r s' hok⟩, hmoves.root, hok⟩
  · obtain ⟨-, f, c, hp, rfl⟩ := wp_error hspec herr
    have hframe := Path.frame hp
    have hsame : c.vfs.fileSystem.names = s.fileSystem.names := hframe.names
    exact ⟨⟨h.1.along ⟨f, c, hp, rfl⟩, hsame ▸ h.2⟩, Vfs.volume_eq hframe.root hsame⟩

/-- An edit, through its step. -/
theorem edit (h : Neat upper s) {op : Op} (hop : op.isEdit = true) (hlocal : op.isLocal = true)
    (hnames : ∀ r a', s.fileSystem.Step op r a' → CaseFree upper a'.names) :
    wp (Vfs.exec op)
      (fun r s' => Neat upper s' ∧ s'.tree.root = s.tree.root ∧
        s.fileSystem.Step op r s'.fileSystem)
      (fun _ s' => Shows upper (s.volume upper) s') s := by
  have hstep : ∀ r s', Vfs.exec op s = .ok r s' → s.fileSystem.Step op r s'.fileSystem :=
    fun r s' hok => Vfs.exec_edit_step h.1.tree hop hok
  exact wp_mono (h.exec hlocal fun r s' hok => hnames r _ (hstep r s' hok))
    (fun r s' h' => ⟨h'.1, h'.2.1, hstep r s' h'.2.2⟩) fun _ _ h' => h'

/-- What a new entry does to the volume. -/
theorem volume_add {s' : Vfs} {id : FileId} (h : Neat upper s) (h' : Neat upper s')
    (hroot : s'.tree.root = s.tree.root)
    (hnames : s'.fileSystem.names = assign s.fileSystem.names d n (some id)) :
    s'.volume upper = (s.volume upper).assign d (foldCase upper n) (some (id, n)) := by
  have hfree' := h'.2
  unfold Vfs.volume
  rw [hnames] at hfree' ⊢
  rw [hroot, entriesOf_add h.2 hfree']
  rfl

/-- A new entry, whose name is new in every case. -/
theorem entered (h : Neat upper s)
    (hnew : ∀ m, (s.fileSystem.names d m).isSome → foldCase upper m ≠ foldCase upper n)
    (isDir : Bool) :
    wp (if isDir then Vfs.mkdir d n else Vfs.create d n)
      (fun id s' => Neat upper s' ∧ ¬ Named s.fileSystem.names id ∧
        s'.volume upper = (s.volume upper).assign d (foldCase upper n) (some (id, n)))
      (fun _ s' => Shows upper (s.volume upper) s') s := by
  have hadd : ∀ id, CaseFree upper (assign s.fileSystem.names d n (some id)) := fun id =>
    h.2.add fun m hm hmn => absurd hmn (hnew m hm)
  cases isDir with
  | true =>
      have hspec := @edit upper s h (.mkdir d n) rfl rfl fun r a' hstep => by
        obtain ⟨id, -, -, -, rfl⟩ := hstep
        exact hadd id
      refine wp_mono (wp_map.mp hspec) ?_ fun _ _ h' => h'
      rintro id s' ⟨h', hroot, id', hid, -, hfresh, hfs⟩
      cases hid
      exact ⟨h', hfresh, h.volume_add h' hroot (congrArg FileSystem.names hfs)⟩
  | false =>
      have hspec := @edit upper s h (.create d n defaultFileMode) rfl rfl fun r a' hstep => by
        obtain ⟨id, -, -, -, rfl⟩ := hstep
        exact hadd id
      refine wp_mono (wp_map.mp hspec) ?_ fun _ _ h' => h'
      rintro id s' ⟨h', hroot, id', hid, -, hfresh, hfs⟩
      cases hid
      exact ⟨h', hfresh, h.volume_add h' hroot (congrArg FileSystem.names hfs)⟩

theorem volume_remove {s' : Vfs} (h : Neat upper s) (hn : (s.fileSystem.names d n).isSome)
    (hroot : s'.tree.root = s.tree.root)
    (hnames : s'.fileSystem.names = assign s.fileSystem.names d n none) :
    s'.volume upper = (s.volume upper).assign d (foldCase upper n) none := by
  unfold Vfs.volume
  rw [hnames, hroot, entriesOf_remove h.2 hn]
  rfl

theorem removed (h : Neat upper s) (isDir : Bool) :
    wp (if isDir then Vfs.rmdir d n else Vfs.unlink d n)
      (fun _ s' => Shows upper ((s.volume upper).assign d (foldCase upper n) none) s')
      (fun _ s' => Shows upper (s.volume upper) s') s := by
  cases isDir with
  | true =>
      have hspec := @edit upper s h (.rmdir d n) rfl rfl fun r a' hstep => by
        obtain ⟨-, rfl⟩ := hstep
        exact h.2.remove
      refine wp_mono (wp_map.mp hspec) ?_ fun _ _ h' => h'
      rintro - s' ⟨h', hroot, ⟨id, hid, -⟩, hfs⟩
      exact ⟨h', h.volume_remove (by rw [hid]; rfl) hroot (congrArg FileSystem.names hfs)⟩
  | false =>
      have hspec := @edit upper s h (.unlink d n) rfl rfl fun r a' hstep => by
        obtain ⟨-, rfl⟩ := hstep
        exact h.2.remove
      refine wp_mono (wp_map.mp hspec) ?_ fun _ _ h' => h'
      rintro - s' ⟨h', hroot, ⟨id, hid⟩, hfs⟩
      exact ⟨h', h.volume_remove (by rw [hid]; rfl) hroot (congrArg FileSystem.names hfs)⟩

/-- A rename to a name that only itself or the old one is equal to up to case. -/
theorem renamed (h : Neat upper s) {id : FileId} (hsrc : s.fileSystem.names p n = some id)
    (hnew : ∀ m, (s.fileSystem.names q m).isSome → foldCase upper m = foldCase upper k →
      m = k ∨ (q = p ∧ m = n)) :
    wp (Vfs.rename p n q k)
      (fun _ s' => Neat upper s' ∧ s'.fileSystem.names q k = some id ∧
        ((s.fileSystem.names q k = some id ∧ s'.volume upper = s.volume upper) ∨
          (∀ old, s.fileSystem.names q k = some old → old ≠ id ∧
              ∀ m, s.fileSystem.names old m = none) ∧
            s'.volume upper = ((s.volume upper).assign p (foldCase upper n) none).assign q
              (foldCase upper k) (some (id, k))))
      (fun _ s' => Shows upper (s.volume upper) s') s := by
  have hspec := @edit upper s h (.rename p n q k) rfl rfl fun r a' hstep => by
    obtain ⟨id, -, ⟨-, rfl⟩ | ⟨-, rfl⟩⟩ := hstep
    · exact h.2
    · exact h.2.move hnew
  refine wp_mono (wp_map.mp hspec) ?_ fun _ _ h' => h'
  rintro - s' ⟨h', hroot, id', hid, ⟨hk, hsame⟩ | ⟨hdisplaced, hmoved⟩⟩
  · rw [hsrc] at hid
    cases hid
    exact ⟨h', hsame ▸ hk, .inl ⟨hk, Vfs.volume_eq hroot (congrArg FileSystem.names hsame)⟩⟩
  · rw [hsrc] at hid
    cases hid
    have hnames : s'.fileSystem.names =
        assign (assign s.fileSystem.names p n none) q k (some id) := by
      rw [hmoved]
      rfl
    have hfree' := h'.2
    refine ⟨h', ?_, .inr ⟨hdisplaced, ?_⟩⟩
    · rw [hnames]
      exact if_pos ⟨rfl, rfl⟩
    · rw [hnames] at hfree'
      unfold Vfs.volume
      rw [hnames, hroot, entriesOf_add h.2.remove hfree',
        entriesOf_remove h.2 (by rw [hsrc]; rfl)]
      rfl

end Neat

namespace Shows

variable {v : Volume}

/-- A call that has nothing to do with names. -/
theorem data {op : Op} (hop : WinFsp.onHandle op = true) : Keeps (Shows upper v) (Vfs.exec op) := by
  rintro s ⟨h, rfl⟩
  have hlocal := WinFsp.onHandle_local hop
  have hsame : ∀ r s', Vfs.exec op s = .ok r s' →
      s'.fileSystem.names = s.fileSystem.names := by
    intro r s' hok
    cases hedit : op.isEdit with
    | true => exact (Vfs.exec_edit_step h.1.tree hedit hok).names hedit hop
    | false =>
        have hdone := wp_ok (Vfs.exec_spec h.1.tree h.1.ledger hlocal granted_any) hok
        exact hdone.names hlocal hedit
  refine wp_mono (h.exec hlocal fun r s' hok => (hsame r s' hok).symm ▸ h.2) ?_ fun _ _ h' => h'
  rintro r s' ⟨h', hroot, hok⟩
  exact ⟨h', Vfs.volume_eq hroot (hsame r s' hok)⟩

theorem flush : Keeps (Shows upper v) Vfs.flush := by
  intro s h
  have hspec := @data upper v .flush rfl s h
  unfold Vfs.exec at hspec
  rw [wp_map] at hspec
  exact hspec

theorem stat {id : FileId} : Keeps (Shows upper v) (Vfs.stat id) := by
  intro s h
  have hspec := @data upper v (.stat id) rfl s h
  unfold Vfs.exec at hspec
  rw [wp_map] at hspec
  exact hspec

end Shows

/-! ## What a callback does -/

namespace Volume

open WinFsp

variable (upper : Char → List Char)

/-- The directory and the last name that a path stands for. -/
def Located (v : Volume) (fileName : String) (d : FileId) (leaf : String) : Prop :=
  ∃ path parent, fromWinPathStr fileName = .ok path ∧
    splitParentName path = .ok (parent, leaf) ∧ v.Resolves upper parent d

/-- What a rename of `id` does. Where an entry is in the place of the new name,
the name may stay spelled as it was there. -/
inductive Renames (v : Volume) (p : FileId) (oldLeaf : String) (q : FileId) (newLeaf : String)
    (replaceIfExists : Bool) (id : FileId) : Volume → Prop where
  /-- Only the case changes. -/
  | respelled (hdir : q = p) (hk : foldCase upper newLeaf = foldCase upper oldLeaf) :
      v.Renames p oldLeaf q newLeaf replaceIfExists id
        (v.assign q (foldCase upper newLeaf) (some (id, newLeaf)))
  /-- The new name is another one of the same file: both stay. -/
  | linked {n n' : String} (hk : v.entry q (foldCase upper newLeaf) = some (id, n))
      (hother : ¬ (q = p ∧ foldCase upper newLeaf = foldCase upper oldLeaf))
      (hn : n' = newLeaf ∨ n' = n) :
      v.Renames p oldLeaf q newLeaf replaceIfExists id
        (v.assign q (foldCase upper newLeaf) (some (id, n')))
  | moved (hk : v.entry q (foldCase upper newLeaf) = none) :
      v.Renames p oldLeaf q newLeaf replaceIfExists id
        ((v.assign p (foldCase upper oldLeaf) none).assign q (foldCase upper newLeaf)
          (some (id, newLeaf)))
  | replaced {old : FileId} {n n' : String}
      (hk : v.entry q (foldCase upper newLeaf) = some (old, n)) (hne : old ≠ id)
      (hreplace : replaceIfExists = true) (hempty : ∀ k, v.entry old k = none)
      (hn : n' = newLeaf ∨ n' = n) :
      v.Renames p oldLeaf q newLeaf replaceIfExists id
        ((v.assign p (foldCase upper oldLeaf) none).assign q (foldCase upper newLeaf)
          (some (id, n')))

/-- What a callback that answered `r` has done. -/
def Step (v : Volume) (c : Callback) (r : Option OpenContext) (v' : Volume) : Prop :=
  match c with
  | .openFile fileName => v' = v ∧ ∃ path ctx, fromWinPathStr fileName = .ok path ∧
      r = some ctx ∧ v.Resolves upper path ctx.fileId
  | .create fileName isDir => ∃ d leaf id, r = some ⟨id, isDir⟩ ∧ v.Located upper fileName d leaf ∧
      v.entry d (foldCase upper leaf) = none ∧ (∀ d' k n, v.entry d' k ≠ some (id, n)) ∧
      v' = v.assign d (foldCase upper leaf) (some (id, leaf))
  | .cleanup ctx delete fileName => v' = v ∨ (delete = true ∧ ∃ name d leaf n,
      fileName = some name ∧ v.Located upper name d leaf ∧
      v.entry d (foldCase upper leaf) = some (ctx.fileId, n) ∧
      v' = v.assign d (foldCase upper leaf) none)
  | .rename oldName newName replaceIfExists => ∃ p oldLeaf q newLeaf id n,
      v.Located upper oldName p oldLeaf ∧ v.Located upper newName q newLeaf ∧
      v.entry p (foldCase upper oldLeaf) = some (id, n) ∧
      v.Renames upper p oldLeaf q newLeaf replaceIfExists id v'
  | .data _ _ => v' = v

/-- What a callback that failed has done. -/
def Fails (v : Volume) (c : Callback) (v' : Volume) : Prop :=
  v' = v ∨ ∃ fileName isDir id, c = .create fileName isDir ∧ v.Step upper c (some ⟨id, isDir⟩) v'

/-- The answers of a run of callbacks, and where they lead. -/
inductive Admits : Volume → List (Callback × Except WinFsp.Error (Option OpenContext)) → Volume →
    Prop where
  | nil {v : Volume} : Admits v [] v
  | returned {v w z : Volume} {c : Callback} {r : Option OpenContext}
      {rest : List (Callback × Except WinFsp.Error (Option OpenContext))}
      (h : v.Step upper c r w) (hrest : Admits w rest z) : Admits v ((c, .ok r) :: rest) z
  | failed {v w z : Volume} {c : Callback} {e : WinFsp.Error}
      {rest : List (Callback × Except WinFsp.Error (Option OpenContext))}
      (h : v.Fails upper c w) (hrest : Admits w rest z) : Admits v ((c, .error e) :: rest) z

end Volume

namespace WinFsp

variable {s : Vfs} {syncMode : Bool} {v : Volume}

theorem wp_onVfs {α : Type} {m : VfsM α} {Q : α → Vfs → Prop} {E : Error → Vfs → Prop} :
    wp (onVfs m) Q E s ↔ wp m Q (fun e => E (.vfs e)) s := by
  unfold wp onVfs
  cases m s with
  | ok a s' => exact Iff.rfl
  | error e s' => exact Iff.rfl

theorem wp_parsed {α : Type} {r : Except PathParseError α} {Q : α → Vfs → Prop}
    {E : Error → Vfs → Prop} (hok : ∀ a, r = .ok a → Q a s)
    (herr : ∀ e, r = .error e → E (.path e) s) : wp (parsed r) Q E s := by
  cases r with
  | ok a => exact hok a rfl
  | error e => exact herr e rfl

theorem onVfs_keeps {α : Type} {I : Vfs → Prop} {m : VfsM α} (h : Keeps I m) :
    Keeps I (onVfs m) := fun s hs => wp_onVfs.mpr (h s hs)

/-- A flush shows in no name, and its failure goes nowhere. -/
theorem maybeFlushNow_spec (h : Shows upper v s) :
    wp (maybeFlushNow syncMode) (fun _ s' => Shows upper v s') (fun _ _ => False) s := by
  unfold maybeFlushNow
  split
  · rw [wp_bind, wp_attempt, wp_onVfs]
    exact Shows.flush s h
  · exact h

theorem openFile_spec (h : Neat upper s) {fileName : String} :
    wp (openFile upper fileName)
      (fun ctx s' => Shows upper (s.volume upper) s' ∧ ∃ path, fromWinPathStr fileName = .ok path ∧
        (s.volume upper).Resolves upper path ctx.fileId)
      (fun _ s' => Shows upper (s.volume upper) s') s := by
  have hshows : Shows upper (s.volume upper) s := ⟨h, rfl⟩
  unfold openFile
  rw [wp_bind]
  refine wp_parsed (fun path hpath => ?_) fun _ _ => hshows
  rw [wp_bind, wp_onVfs]
  refine wp_mono (Vfs.lookupPathCi_spec h.1.tree h.2) ?_ ?_
  · rintro id s' ⟨rfl, hid⟩
    rw [wp_bind]
    refine wp_mono (onVfs_keeps Shows.stat s' hshows) (fun st s₁ h₁ => ?_) fun _ _ h' => h'
    rw [wp_bind]
    exact wp_mono (onVfs_keeps Shows.stat s₁ h₁) (fun _ _ h₂ => ⟨h₂, path, hpath, hid⟩)
      fun _ _ h' => h'
  · rintro e s' rfl
    exact hshows

/-- What follows the search for a directory. -/
theorem resolved_spec {α : Type} {parent : String} {f : FileId → WinM α} {Q : α → Vfs → Prop}
    {E : Error → Vfs → Prop} (h : Neat upper s)
    (hrest : ∀ d, (s.volume upper).Resolves upper parent d → wp (f d) Q E s)
    (hfail : ∀ e, E e s) : wp (onVfs (Vfs.lookupPathCi upper parent) >>= f) Q E s := by
  rw [wp_bind, wp_onVfs]
  refine wp_mono (Vfs.lookupPathCi_spec h.1.tree h.2) ?_ ?_
  · rintro d s' ⟨rfl, hd⟩
    exact hrest d hd
  · rintro e s' rfl
    exact hfail _

/-- What follows the reading of the name of an entry. -/
theorem split_spec {α : Type} {fileName : String} {f : String × String → WinM α}
    {Q : α → Vfs → Prop} {E : Error → Vfs → Prop}
    (hrest : ∀ path parent leaf, fromWinPathStr fileName = .ok path →
      splitParentName path = .ok (parent, leaf) → wp (f (parent, leaf)) Q E s)
    (hfail : ∀ e, E e s) :
    wp (parsed (fromWinPathStr fileName) >>= fun path => parsed (splitParentName path) >>= f) Q E s
    := by
  rw [wp_bind]
  refine wp_parsed (fun path hpath => ?_) fun _ _ => hfail _
  rw [wp_bind]
  exact wp_parsed (fun parts hparts => hrest path parts.1 parts.2 hpath hparts) fun _ _ => hfail _

theorem create_spec (h : Neat upper s) {fileName : String} {isDir : Bool} :
    wp (create upper syncMode fileName isDir)
      (fun ctx s' => Neat upper s' ∧ (s.volume upper).Step upper (.create fileName isDir) (some ctx)
        (s'.volume upper))
      (fun _ s' => Neat upper s' ∧ (s.volume upper).Fails upper (.create fileName isDir)
        (s'.volume upper)) s := by
  unfold create
  refine split_spec (fun path parent leaf hpath hparts => ?_) fun _ => ⟨h, .inl rfl⟩
  refine resolved_spec h (fun d hd => ?_) fun _ => ⟨h, .inl rfl⟩
  have hloc : (s.volume upper).Located upper fileName d leaf := ⟨path, parent, hpath, hparts, hd⟩
  rw [wp_bind, wp_attempt, wp_onVfs]
  refine wp_mono (Vfs.lookupCi_spec h.1.tree) ?_ ?_
  · rintro r s' ⟨rfl, -⟩
    exact ⟨h, .inl rfl⟩
  · rintro e s' ⟨rfl, hnew⟩
    show wp (onVfs _ >>= _) _ _ _
    rw [wp_bind, wp_onVfs]
    refine wp_mono (h.entered hnew isDir) ?_ fun _ s₁ h₁ => ⟨h₁.1, .inl h₁.2⟩
    rintro id s₁ ⟨h₁, hfresh, hvol⟩
    have hstep : (s'.volume upper).Step upper (.create fileName isDir) (some ⟨id, isDir⟩)
        (s₁.volume upper) := by
      refine ⟨d, leaf, id, rfl, hloc, entriesOf_eq_none hnew, fun d' k n hk => hfresh ?_, hvol⟩
      obtain ⟨hname, -⟩ := (entriesOf_eq_some h.2).mp hk
      exact ⟨d', n, hname⟩
    rw [wp_bind]
    refine wp_mono (maybeFlushNow_spec ⟨h₁, rfl⟩) (fun _ s₂ h₂ => ?_) fun _ _ => False.elim
    rw [wp_bind]
    refine wp_mono (onVfs_keeps Shows.stat s₂ h₂) (fun _ s₃ h₃ => ?_) fun _ s₃ h₃ => ?_
    · exact ⟨h₃.1, h₃.2 ▸ hstep⟩
    · exact ⟨h₃.1, .inr ⟨fileName, isDir, id, rfl, h₃.2 ▸ hstep⟩⟩

theorem deleteEntry_spec (h : Neat upper s) {ctx : OpenContext} {fileName : String} :
    wp (deleteEntry upper syncMode ctx fileName)
      (fun _ s' => Neat upper s' ∧ (s.volume upper).Step upper (.cleanup ctx true (some fileName))
        none (s'.volume upper))
      (fun _ s' => Shows upper (s.volume upper) s') s := by
  unfold deleteEntry
  refine split_spec (fun path parent leaf hpath hparts => ?_) fun _ => ⟨h, rfl⟩
  refine resolved_spec h (fun d hd => ?_) fun _ => ⟨h, rfl⟩
  have hloc : (s.volume upper).Located upper fileName d leaf := ⟨path, parent, hpath, hparts, hd⟩
  rw [wp_bind, wp_onVfs]
  refine wp_mono (Vfs.lookupCi_spec h.1.tree) ?_ ?_
  · rintro ⟨target, stored⟩ s' ⟨rfl, hname, hfold⟩
    dsimp only at hname hfold ⊢
    split
    · exact ⟨h, .inl rfl⟩
    next htarget =>
      have hentry : (s'.volume upper).entry d (foldCase upper leaf) = some (ctx.fileId, stored) :=
        (entriesOf_eq_some h.2).mpr ⟨not_not.mp htarget ▸ hname, hfold⟩
      have hdeleted : (s'.volume upper).Step upper (.cleanup ctx true (some fileName)) none
          ((s'.volume upper).assign d (foldCase upper stored) none) :=
        .inr ⟨rfl, fileName, d, leaf, stored, rfl, hloc, hentry, by rw [hfold]⟩
      rw [wp_bind, wp_attempt, wp_onVfs]
      refine wp_mono (h.removed ctx.isDir) (fun _ s₁ h₁ => ?_) fun _ s₁ h₁ => ?_
      · refine wp_mono (maybeFlushNow_spec h₁) (fun _ s₂ h₂ => ?_) fun _ _ => False.elim
        exact ⟨h₂.1, h₂.2 ▸ hdeleted⟩
      · refine wp_mono (maybeFlushNow_spec h₁) (fun _ s₂ h₂ => ?_) fun _ _ => False.elim
        exact ⟨h₂.1, .inl h₂.2⟩
  · rintro e s' ⟨rfl, -⟩
    exact ⟨h, rfl⟩

theorem cleanup_spec (h : Neat upper s) {ctx : OpenContext} {delete : Bool}
    {fileName : Option String} :
    wp (cleanup upper syncMode ctx delete fileName)
      (fun _ s' => Neat upper s' ∧ (s.volume upper).Step upper (.cleanup ctx delete fileName) none
        (s'.volume upper))
      (fun _ _ => False) s := by
  unfold cleanup
  split
  next hdelete =>
    cases fileName with
    | none => exact ⟨h, .inl rfl⟩
    | some name =>
        rw [hdelete, wp_bind, wp_attempt]
        exact wp_mono (deleteEntry_spec h) (fun _ _ h' => h') fun _ _ h' => ⟨h'.1, .inl h'.2⟩
  · exact wp_mono (maybeFlushNow_spec ⟨h, rfl⟩) (fun _ _ h' => ⟨h'.1, .inl h'.2⟩)
      fun _ _ => False.elim

/-- The new name in the case that was asked for, or in the one it has. -/
theorem fixCase_spec (h : Neat upper s) {q id : FileId} {name newLeaf : String}
    (hname : s.fileSystem.names q name = some id)
    (hfold : foldCase upper name = foldCase upper newLeaf) :
    wp (fixCase q name newLeaf)
      (fun _ s' => ∃ n', (n' = newLeaf ∨ n' = name) ∧
        Shows upper ((s.volume upper).assign q (foldCase upper newLeaf) (some (id, n'))) s')
      (fun _ _ => False) s := by
  have hentry : (s.volume upper).entry q (foldCase upper newLeaf) = some (id, name) :=
    (entriesOf_eq_some h.2).mpr ⟨hname, hfold⟩
  have hkept : Shows upper
      ((s.volume upper).assign q (foldCase upper newLeaf) (some (id, name))) s :=
    ⟨h, (Volume.assign_self hentry).symm⟩
  have hsome : (s.fileSystem.names q name).isSome := by rw [hname]; rfl
  unfold fixCase
  split
  · exact ⟨name, .inr rfl, hkept⟩
  next hne =>
    rw [wp_bind, wp_attempt, wp_onVfs]
    have hfix := h.renamed hname (q := q) (k := newLeaf)
      fun m hm heq => .inr ⟨rfl, h.2 q m name hm hsome (heq.trans hfold.symm)⟩
    refine wp_mono hfix ?_ fun _ s₁ h₁ => ?_
    · rintro - s₁ ⟨h₁, -, ⟨hk, -⟩ | ⟨-, hvol⟩⟩
      · exact absurd (h.2 q name newLeaf hsome (by rw [hk]; rfl) hfold) hne
      · rw [hfold, Volume.assign_assign] at hvol
        exact ⟨newLeaf, .inl rfl, h₁, hvol⟩
    · exact ⟨name, .inr rfl, h₁.1, h₁.2.trans (Volume.assign_self hentry).symm⟩

/-- The name a rename gives is one that only itself or the old one is equal to
up to case, and it is the name that was asked for up to case. -/
theorem effectiveNew_spec {replaceIfExists : Bool} {fromParent toParent srcId : FileId}
    {oldStored newLeaf name : String} {target : Except Error (FileId × String)}
    (hfree : CaseFree upper s.fileSystem.names)
    (htarget : match target with
      | .ok r => s.fileSystem.names toParent r.2 = some r.1
          ∧ foldCase upper r.2 = foldCase upper newLeaf
      | .error _ => ∀ k, (s.fileSystem.names toParent k).isSome →
          foldCase upper k ≠ foldCase upper newLeaf)
    (h : effectiveNew replaceIfExists fromParent toParent srcId oldStored newLeaf target
      = .ok name) :
    foldCase upper name = foldCase upper newLeaf
      ∧ ∀ m, (s.fileSystem.names toParent m).isSome → foldCase upper m = foldCase upper name →
        m = name ∨ (toParent = fromParent ∧ m = oldStored) := by
  cases target with
  | error e =>
      cases h
      exact ⟨rfl, fun m hm heq => absurd heq (htarget m hm)⟩
  | ok r =>
      obtain ⟨hstored, hfold⟩ := htarget
      have hsome : (s.fileSystem.names toParent r.2).isSome := by rw [hstored]; rfl
      unfold effectiveNew at h
      have hkept : name = r.2 → foldCase upper name = foldCase upper newLeaf
          ∧ ∀ m, (s.fileSystem.names toParent m).isSome →
            foldCase upper m = foldCase upper name →
            m = name ∨ (toParent = fromParent ∧ m = oldStored) := by
        rintro rfl
        exact ⟨hfold, fun m hm heq => .inl (hfree toParent m r.2 hm hsome heq)⟩
      dsimp only at h
      split at h
      · split at h
        next hsame =>
          -- a change of case: the entry found is the one that moves
          cases h
          refine ⟨rfl, fun m hm heq => .inr ⟨hsame.1, ?_⟩⟩
          rw [← hsame.2]
          exact hfree toParent m r.2 hm hsome (heq.trans hfold.symm)
        · exact hkept (Except.ok.inj h).symm
      · split at h
        · exact hkept (Except.ok.inj h).symm
        · cases h

/-- A rename to a name that is settled. -/
theorem renameAs_spec (h : Neat upper s) {p q id : FileId} {oldStored name newLeaf : String}
    (hsrc : s.fileSystem.names p oldStored = some id)
    (hfold : foldCase upper name = foldCase upper newLeaf)
    (hnew : ∀ m, (s.fileSystem.names q m).isSome → foldCase upper m = foldCase upper name →
      m = name ∨ (q = p ∧ m = oldStored))
    {R : Volume → Prop}
    (hstay : ∀ n', n' = newLeaf ∨ n' = name → s.fileSystem.names q name = some id →
      R ((s.volume upper).assign q (foldCase upper newLeaf) (some (id, n'))))
    (hmove : ∀ n', n' = newLeaf ∨ n' = name →
      (∀ old, s.fileSystem.names q name = some old → old ≠ id ∧
        ∀ m, s.fileSystem.names old m = none) →
      R (((s.volume upper).assign p (foldCase upper oldStored) none).assign q
        (foldCase upper newLeaf) (some (id, n')))) :
    wp (do
        onVfs (Vfs.rename p oldStored q name)
        fixCase q name newLeaf
        maybeFlushNow syncMode : WinM Unit)
      (fun _ s' => Neat upper s' ∧ R (s'.volume upper))
      (fun _ s' => Shows upper (s.volume upper) s') s := by
  rw [wp_bind, wp_onVfs]
  refine wp_mono (h.renamed hsrc hnew) ?_ fun _ _ h' => h'
  rintro - s₁ ⟨h₁, hname, hcase⟩
  rw [wp_bind]
  refine wp_mono (fixCase_spec h₁ hname hfold) ?_ fun _ _ => False.elim
  rintro - s₂ ⟨n', hn', h₂⟩
  refine wp_mono (maybeFlushNow_spec h₂) (fun _ s₃ h₃ => ⟨h₃.1, ?_⟩) fun _ _ => False.elim
  rw [h₃.2]
  rcases hcase with ⟨hk, hvol⟩ | ⟨hdisplaced, hvol⟩
  · rw [hvol]
    exact hstay n' hn' hk
  · rw [hvol, hfold, Volume.assign_assign]
    exact hmove n' hn' hdisplaced

/-- A rename, once what is in the place of the new name is known. -/
theorem renameOver_spec (h : Neat upper s) {p q id : FileId} {oldStored oldLeaf newLeaf : String}
    {replaceIfExists : Bool} {target : Except Error (FileId × String)}
    (hsrc : s.fileSystem.names p oldStored = some id)
    (hold : foldCase upper oldStored = foldCase upper oldLeaf)
    (htarget : match target with
      | .ok r => s.fileSystem.names q r.2 = some r.1 ∧ foldCase upper r.2 = foldCase upper newLeaf
      | .error _ => ∀ k, (s.fileSystem.names q k).isSome →
          foldCase upper k ≠ foldCase upper newLeaf) :
    wp (do
        let name ← fromExcept (effectiveNew replaceIfExists p q id oldStored newLeaf target)
        onVfs (Vfs.rename p oldStored q name)
        fixCase q name newLeaf
        maybeFlushNow syncMode : WinM Unit)
      (fun _ s' => Neat upper s' ∧
        (s.volume upper).Renames upper p oldLeaf q newLeaf replaceIfExists id (s'.volume upper))
      (fun _ s' => Shows upper (s.volume upper) s') s := by
  rw [wp_bind]
  cases hname : effectiveNew replaceIfExists p q id oldStored newLeaf target with
  | error e => exact ⟨h, rfl⟩
  | ok name =>
      obtain ⟨hfold, hnew⟩ := effectiveNew_spec h.2 htarget hname
      rw [wp_fromExcept_ok]
      cases target with
      | error e =>
          cases hname
          refine renameAs_spec h hsrc hfold hnew (fun n' hn' hk => ?_) fun n' hn' _ => ?_
          · exact absurd rfl (htarget newLeaf (by rw [hk]; rfl))
          · rw [or_self_iff.mp hn', hold]
            exact .moved (entriesOf_eq_none htarget)
      | ok r =>
          obtain ⟨hstored, hr⟩ := htarget
          have hentry : (s.volume upper).entry q (foldCase upper newLeaf) = some (r.1, r.2) :=
            (entriesOf_eq_some h.2).mpr ⟨hstored, hr⟩
          unfold effectiveNew at hname
          dsimp only at hname
          split at hname
          next hid =>
            subst hid
            split at hname
            next hsame =>
              -- the entry found is the one that moves
              obtain ⟨rfl, rfl⟩ := hsame
              cases hname
              have hk : foldCase upper newLeaf = foldCase upper oldLeaf := hr.symm.trans hold
              refine renameAs_spec h hsrc hfold hnew (fun n' hn' _ => ?_) fun n' hn' _ => ?_
              · rw [or_self_iff.mp hn']
                exact .respelled rfl hk
              · rw [or_self_iff.mp hn', hr, Volume.assign_assign]
                exact .respelled rfl hk
            next hother =>
              cases hname
              refine renameAs_spec h hsrc hfold hnew (fun n' hn' _ => ?_) fun n' _ hdisplaced => ?_
              · refine .linked hentry (fun hat => hother ⟨hat.1, ?_⟩) hn'
                obtain ⟨rfl, hk⟩ := hat
                exact h.2 q r.2 oldStored (by rw [hstored]; rfl) (by rw [hsrc]; rfl)
                  (hr.trans (hk.trans hold.symm))
              · exact absurd rfl (hdisplaced r.1 hstored).1
          next hid =>
            split at hname
            next hreplace =>
              cases hname
              refine renameAs_spec h hsrc hfold hnew (fun n' _ hk => ?_) fun n' hn' hdisplaced => ?_
              · rw [hstored] at hk
                exact absurd (Option.some.inj hk) hid
              · obtain ⟨-, hempty⟩ := hdisplaced r.1 hstored
                rw [hold]
                refine .replaced hentry hid hreplace (fun k => ?_) hn'
                refine entriesOf_eq_none fun m hm => ?_
                rw [hempty m] at hm
                cases hm
            · cases hname

/-- The directory of the new name. -/
theorem newParentOf_spec {α : Type} {p : FileId} {oldParent newParent : String} {f : FileId → WinM α}
    {Q : α → Vfs → Prop} {E : Error → Vfs → Prop} (h : Neat upper s)
    (hp : (s.volume upper).Resolves upper oldParent p)
    (hrest : ∀ q, (s.volume upper).Resolves upper newParent q → wp (f q) Q E s)
    (hfail : ∀ e, E e s) : wp (newParentOf upper p oldParent newParent >>= f) Q E s := by
  unfold newParentOf
  split
  next hsame => exact hrest p (hsame ▸ hp)
  next => exact resolved_spec h hrest hfail

theorem rename_spec (h : Neat upper s) {oldName newName : String} {replaceIfExists : Bool} :
    wp (rename upper syncMode oldName newName replaceIfExists)
      (fun _ s' => Neat upper s' ∧
        (s.volume upper).Step upper (.rename oldName newName replaceIfExists) none (s'.volume upper))
      (fun _ s' => Shows upper (s.volume upper) s') s := by
  have hfail : Shows upper (s.volume upper) s := ⟨h, rfl⟩
  unfold rename
  rw [wp_bind]
  refine wp_parsed (fun old hold => ?_) fun _ _ => hfail
  rw [wp_bind]
  refine wp_parsed (fun new hnew => ?_) fun _ _ => hfail
  rw [wp_bind]
  refine wp_parsed (fun oldParts holdParts => ?_) fun _ _ => hfail
  obtain ⟨oldParent, oldLeaf⟩ := oldParts
  dsimp only
  rw [wp_bind]
  refine wp_parsed (fun newParts hnewParts => ?_) fun _ _ => hfail
  obtain ⟨newParent, newLeaf⟩ := newParts
  refine resolved_spec h (fun p hp => ?_) fun _ => hfail
  refine newParentOf_spec h hp (fun q hq => ?_) fun _ => hfail
  rw [wp_bind, wp_onVfs]
  refine wp_mono (Vfs.lookupCi_spec h.1.tree) ?_ fun e s' h' => h'.1 ▸ hfail
  rintro ⟨id, oldStored⟩ s' ⟨rfl, hsrc, hstored⟩
  dsimp only at hsrc hstored ⊢
  have hdone : ∀ v', (s'.volume upper).Renames upper p oldLeaf q newLeaf replaceIfExists id v' →
      (s'.volume upper).Step upper (.rename oldName newName replaceIfExists) none v' :=
    fun v' hv' => ⟨p, oldLeaf, q, newLeaf, id, oldStored, ⟨old, oldParent, hold, holdParts, hp⟩,
      ⟨new, newParent, hnew, hnewParts, hq⟩, (entriesOf_eq_some h.2).mpr ⟨hsrc, hstored⟩, hv'⟩
  rw [wp_bind, wp_attempt, wp_onVfs]
  refine wp_mono (Vfs.lookupCi_spec h.1.tree) ?_ ?_
  · rintro r s₁ ⟨rfl, hfound⟩
    have hspec := @renameOver_spec upper s₁ syncMode h p q id oldStored oldLeaf newLeaf
      replaceIfExists (.ok r) hsrc hstored hfound
    exact wp_mono hspec (fun _ _ h' => ⟨h'.1, hdone _ h'.2⟩) fun _ _ h' => h'
  · rintro e s₁ ⟨rfl, hnone⟩
    have hspec := @renameOver_spec upper s₁ syncMode h p q id oldStored oldLeaf newLeaf
      replaceIfExists (.error (.vfs e)) hsrc hstored hnone
    exact wp_mono hspec (fun _ _ h' => ⟨h'.1, hdone _ h'.2⟩) fun _ _ h' => h'

/-! ## Runs -/

theorem callback_spec (h : Neat upper s) {c : Callback} :
    wp (callback upper syncMode c)
      (fun r s' => Neat upper s' ∧ (s.volume upper).Step upper c r (s'.volume upper))
      (fun _ s' => Neat upper s' ∧ (s.volume upper).Fails upper c (s'.volume upper)) s := by
  have hfail : ∀ s', Shows upper (s.volume upper) s' →
      Neat upper s' ∧ (s.volume upper).Fails upper c (s'.volume upper) :=
    fun s' h' => ⟨h'.1, .inl h'.2⟩
  unfold callback
  cases c with
  | openFile fileName =>
      rw [wp_map]
      refine wp_mono (openFile_spec h) ?_ fun _ s' h' => hfail s' h'
      rintro ctx s' ⟨h', path, hpath, hctx⟩
      exact ⟨h'.1, h'.2, path, ctx, hpath, rfl, hctx⟩
  | create fileName isDir => exact wp_map.mpr (create_spec h)
  | cleanup ctx delete fileName =>
      rw [wp_map]
      exact wp_mono (cleanup_spec h) (fun _ _ h' => h') fun _ _ => False.elim
  | rename oldName newName replaceIfExists =>
      rw [wp_map]
      exact wp_mono (rename_spec h) (fun _ _ h' => h') fun _ s' h' => hfail s' h'
  | data op hop =>
      rw [wp_bind, wp_onVfs]
      refine wp_mono (Shows.data hop s ⟨h, rfl⟩) (fun _ s₁ h₁ => ?_) fun _ s' h' => hfail s' h'
      rw [wp_bind]
      show wp (if _ then _ else _) _ _ _
      split
      · exact wp_mono (maybeFlushNow_spec h₁) (fun _ _ h' => h') fun _ _ => False.elim
      · exact h₁

/-- What a step leaves and what it answers. -/
theorem step_spec (h : Neat upper s) {c : Callback × Env} :
    Neat upper (step upper syncMode s c) ∧
      match outcome upper syncMode s c with
      | .ok r => (s.volume upper).Step upper c.1 r ((step upper syncMode s c).volume upper)
      | .error _ => (s.volume upper).Fails upper c.1 ((step upper syncMode s c).volume upper) := by
  have hstart : Neat upper (s.withEnv c.2) := ⟨h.1.withEnv, h.2⟩
  have hspec := @callback_spec upper (s.withEnv c.2) syncMode hstart c.1
  unfold step outcome
  cases hcall : call upper syncMode s c with
  | ok r s' =>
      have hdone := wp_ok hspec hcall
      exact hdone
  | error e s' =>
      have hfailed := wp_error hspec hcall
      exact hfailed

theorem run_neat (h : Neat upper s) {calls : List (Callback × Env)} :
    Neat upper (run upper syncMode s calls) := by
  induction calls generalizing s with
  | nil => exact h
  | cons c rest ih => exact ih (step_spec h).1

theorem run_admitted (h : Neat upper s) {calls : List (Callback × Env)} :
    (s.volume upper).Admits upper (outcomes upper syncMode s calls)
      ((run upper syncMode s calls).volume upper) := by
  induction calls generalizing s with
  | nil => exact .nil
  | cons c rest ih =>
      obtain ⟨hneat, hstep⟩ := @step_spec upper s syncMode h c
      have hrest := ih hneat
      unfold outcomes
      cases hout : outcome upper syncMode s c with
      | ok r =>
          rw [hout] at hstep
          exact .returned hstep hrest
      | error e =>
          rw [hout] at hstep
          exact .failed hstep hrest

end WinFsp

open WinFsp in
/-- Case does not matter on a Windows volume. After any run of callbacks no
directory has two names that differ in case only; so all spellings of a path are
one path, and a path that is there exactly is found by each of them. -/
theorem windows_names_caseless {s : Vfs} (h : Owned s)
    (hfree : CaseFree upper s.fileSystem.names) {syncMode : Bool}
    {calls : List (Callback × Env)} :
    let s' := run upper syncMode s calls
    CaseFree upper s'.fileSystem.names
      ∧ (∀ p q, Vfs.SamePath upper p q →
        Vfs.lookupPathCi upper p s' = Vfs.lookupPathCi upper q s')
      ∧ ∀ p q id s'', Vfs.lookupPath p s' = .ok id s'' → Vfs.SamePath upper p q →
        Vfs.lookupPathCi upper q s' = .ok id s'' := by
  intro s'
  have hneat : Neat upper s' := run_neat ⟨h, hfree⟩
  refine ⟨hneat.2, fun p q hpq => Vfs.lookupPathCi_congr hneat.2 hpq, fun p q id s'' hp hpq => ?_⟩
  rw [← Vfs.lookupPathCi_congr hneat.2 hpq]
  exact Vfs.lookupPathCi_of_lookupPath hp

namespace WinFsp

def asciiUpper (ch : Char) : List Char := [ch.toUpper]

/-- A directory, a file in it that is made and renamed in other cases. -/
def shoutedCalls : List (Callback × Env) :=
  [ (.create "\\Docs" true, Env.quiet), (.create "\\DOCS\\a.txt" false, Env.quiet),
    (.rename "\\DOCS\\A.TXT" "\\docs\\B.txt" false, Env.quiet) ]

theorem roomy_caseFree : CaseFree asciiUpper roomyVfs.fileSystem.names := by
  intro d n n' hn _ _
  obtain ⟨c, hc⟩ := Option.isSome_iff_exists.mp hn
  obtain ⟨i, hi, hchild⟩ := Inodes.names_eq_some_iff.mp hc
  rw [DirectoryTree.eq_newRoot hi] at hchild
  cases hchild

end WinFsp

open WinFsp in
theorem windows_names_caseless_shouted :
    ∃ s'', Vfs.lookupPathCi asciiUpper "/DOCS/b.TXT" (run asciiUpper false roomyVfs shoutedCalls)
      = .ok 3 s'' := by
  have hexact : (match Vfs.lookupPath "/Docs/B.txt" (run asciiUpper false roomyVfs shoutedCalls) with
      | .ok id _ => some id
      | .error _ _ => none) = some 3 := by decide +kernel
  obtain ⟨-, -, hfound⟩ := @windows_names_caseless asciiUpper roomyVfs
    (Vfs.readable_new rfl rfl).owned roomy_caseFree false shoutedCalls
  cases hp : Vfs.lookupPath "/Docs/B.txt" (run asciiUpper false roomyVfs shoutedCalls) with
  | error e s'' =>
      rw [hp] at hexact
      cases hexact
  | ok id s'' =>
      rw [hp] at hexact
      rw [Option.some.inj hexact] at hp
      have hsame : (Vfs.segments "/Docs/B.txt").map (foldCase asciiUpper)
          = (Vfs.segments "/DOCS/b.TXT").map (foldCase asciiUpper) := by decide +kernel
      exact ⟨s'', hfound _ _ _ _ hp hsame⟩

open WinFsp in
/-- The callbacks make a volume of names without case out of a file system of
exact names. -/
theorem windows_volume {s : Vfs} (h : Owned s) (hfree : CaseFree upper s.fileSystem.names)
    {syncMode : Bool} {calls : List (Callback × Env)} :
    (s.volume upper).Admits upper (outcomes upper syncMode s calls)
      ((run upper syncMode s calls).volume upper) :=
  run_admitted ⟨h, hfree⟩

namespace WinFsp

/-- The file of the handle that a callback has opened. -/
def opened (o : Callback × Except Error (Option OpenContext)) : Option FileId :=
  match o.2 with
  | .ok r => r.map OpenContext.fileId
  | .error _ => none

/-- A name that is there in another case is refused; a handle deletes the file
it is of and no other one under its name. -/
def contestedCalls : List (Callback × Env) :=
  shoutedCalls ++
    [ (.create "\\docs\\b.TXT" false, Env.quiet),
      (.cleanup ⟨7, false⟩ true (some "\\DOCS\\B.TXT"), Env.quiet),
      (.openFile "\\DOCS\\B.TXT", Env.quiet),
      (.cleanup ⟨3, false⟩ true (some "\\DOCS\\B.TXT"), Env.quiet),
      (.openFile "\\DOCS\\B.TXT", Env.quiet) ]

end WinFsp

open WinFsp in
theorem windows_volume_contested :
    (outcomes asciiUpper false roomyVfs contestedCalls).map opened =
        [some 2, some 3, none, none, none, some 3, none, none] ∧
      (roomyVfs.volume asciiUpper).Admits asciiUpper
        (outcomes asciiUpper false roomyVfs contestedCalls)
        ((run asciiUpper false roomyVfs contestedCalls).volume asciiUpper) :=
  ⟨by decide +kernel, windows_volume (Vfs.readable_new rfl rfl).owned roomy_caseFree⟩

end Luksbox
