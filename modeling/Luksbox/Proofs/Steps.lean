import Luksbox.Model.Run

/-!
# Rules for the small steps

One rule for each step the methods are made of, in the form the weakest
precondition of a method unfolds to: what has to hold where the step succeeds,
and what where it fails. A method is then executed symbolically by rewriting
with these rules and splitting the conjunctions.
-/

namespace Luksbox

open Lib

namespace Vfs

variable {α : Type} {s : Vfs}

theorem wp_fromExcept {r : Except Failure α} {Q : α → Vfs → Prop} {E : Failure → Vfs → Prop} :
    wp (fromExcept r) Q E s ↔
      (∀ a, r = .ok a → Q a s) ∧ (∀ e, r = .error e → E e s) := by
  cases r with
  | ok a =>
      rw [wp_fromExcept_ok]
      exact ⟨fun h => ⟨fun _ ha => by injection ha with ha; exact ha ▸ h, nofun⟩,
        fun h => h.1 a rfl⟩
  | error e =>
      rw [wp_fromExcept_error]
      exact ⟨fun h => ⟨nofun, fun _ he => by injection he with he; exact he ▸ h⟩,
        fun h => h.2 e rfl⟩

theorem wp_orThrow {o : Option α} {e : Failure} {Q : α → Vfs → Prop}
    {E : Failure → Vfs → Prop} :
    wp (orThrow e o) Q E s ↔ (∀ a, o = some a → Q a s) ∧ (o = none → E e s) := by
  cases o with
  | some a =>
      show Q a s ↔ _
      exact ⟨fun h => ⟨fun _ ha => by injection ha with ha; exact ha ▸ h, nofun⟩,
        fun h => h.1 a rfl⟩
  | none =>
      show E e s ↔ _
      exact ⟨fun h => ⟨nofun, fun _ => h⟩, fun h => h.2 rfl⟩

theorem wp_inodeOr {id : FileId} {e : Failure} {Q : Inode → Vfs → Prop}
    {E : Failure → Vfs → Prop} :
    wp (inodeOr e id) Q E s ↔
      (∀ i, s.tree.inodes.get? id = some i → Q i s) ∧ (s.tree.inodes.get? id = none → E e s) := by
  unfold inodeOr
  simp only [wp_bind, wp_get, wp_orThrow]

/-- The state with one inode edited. -/
def mapInode (s : Vfs) (id : FileId) (f : Inode → Inode) : Vfs :=
  { s with tree := { s.tree with inodes := s.tree.inodes.adjust id f } }

theorem wp_updateInode {id : FileId} {f : Inode → Inode} {Q : Unit → Vfs → Prop}
    {E : Failure → Vfs → Prop} :
    wp (updateInode id f) Q E s ↔
      (∀ i, s.tree.inodes.get? id = some i → Q () (s.mapInode id f)) ∧
        (s.tree.inodes.get? id = none → E .panic s) := by
  unfold updateInode mapInode
  simp only [wp_bind, wp_inodeOr, wp_modify]
  refine and_congr (forall_congr' fun i => ?_) Iff.rfl
  refine imp_congr_right fun hi => ?_
  rw [OrdMap.adjust_eq_insert hi]

theorem wp_requireDir {id : FileId} {Q : Inode → Vfs → Prop} {E : Failure → Vfs → Prop} :
    wp (requireDir id) Q E s ↔
      (∀ i, s.tree.inodes.get? id = some i →
        (i.kind ≠ .directory → E (.err .notADirectory) s) ∧ (i.kind = .directory → Q i s)) ∧
      (s.tree.inodes.get? id = none → E (.err .notFound) s) := by
  unfold requireDir
  simp only [wp_bind, wp_inodeOr, wp_ite, wp_throw, wp_pure, ne_eq, not_not]

theorem wp_ensureWritable {Q : Unit → Vfs → Prop} {E : Failure → Vfs → Prop} :
    wp ensureWritable Q E s ↔
      (s.toleratedInodes ≠ [] → E (.err .readOnlyMount) s) ∧ (s.toleratedInodes = [] → Q () s) := by
  unfold ensureWritable
  simp only [wp_bind, wp_get, wp_ite, wp_throw, wp_pure, ne_eq, not_not]

theorem wp_alloc {next : DirectoryTree → Option (Nat × DirectoryTree)} {Q : Nat → Vfs → Prop}
    {E : Failure → Vfs → Prop} :
    wp (alloc next) Q E s ↔
      (∀ n tree, next s.tree = some (n, tree) → Q n { s with tree := tree }) ∧
        (next s.tree = none → E (.err .idSpaceExhausted) s) := by
  unfold alloc
  simp only [wp_bind, wp_get]
  cases hn : next s.tree with
  | none => exact ⟨fun h => ⟨fun _ _ heq => absurd heq (by simp), fun _ => h⟩, fun h => h.2 rfl⟩
  | some r =>
      obtain ⟨n, tree⟩ := r
      simp only [wp_bind, wp_set, wp_pure]
      refine ⟨fun h => ⟨fun n' tree' heq => ?_, fun heq => absurd heq (by simp)⟩, fun h => h.1 n tree rfl⟩
      injection heq with heq
      injection heq with hn' ht'
      exact hn' ▸ ht' ▸ h

theorem wp_onContainer {m : ContainerM α} {Q : α → Vfs → Prop} {E : Failure → Vfs → Prop} :
    wp (onContainer m) Q E s ↔
      wp m (fun a c => Q a { s with container := c }) (fun e c => E e { s with container := c })
        s.container := wp_zoom

@[simp] theorem wp_markDirty {Q : Unit → Vfs → Prop} {E : Failure → Vfs → Prop} :
    wp markDirty Q E s ↔ Q () { s with dirty := true } := Iff.rfl

@[simp] theorem wp_pushPending {ids : List ChunkId} {Q : Unit → Vfs → Prop}
    {E : Failure → Vfs → Prop} :
    wp (pushPending ids) Q E s ↔ Q () { s with pendingFree := s.pendingFree ++ ids } := Iff.rfl

@[simp] theorem wp_nowNs {Q : Nat → Vfs → Prop} {E : Failure → Vfs → Prop} :
    wp nowNs Q E s ↔ Q s.container.env.nowNs s := Iff.rfl

/-! ## Calls -/

/-- A property both exits of a call have holds after the step. -/
theorem step_of_wp {c : Call} {P : Vfs → Prop}
    (h : wp (exec c.op) (fun _ => P) (fun _ => P) (s.withEnv c.env)) : P (s.step c) := by
  unfold wp at h
  unfold step call left
  cases hr : exec c.op (s.withEnv c.env) with
  | ok r s' =>
      rw [hr] at h
      exact h
  | error e s' =>
      rw [hr] at h
      exact h

theorem of_wp_error {m : VfsM α} {Q : α → Vfs → Prop} {E : Failure → Vfs → Prop} {e : Failure}
    {s' : Vfs} (h : wp m Q E s) (he : m s = .error e s') : E e s' := by
  unfold wp at h
  rw [he] at h
  exact h

theorem of_wp_ok {m : VfsM α} {Q : α → Vfs → Prop} {E : Failure → Vfs → Prop} {a : α}
    {s' : Vfs} (h : wp m Q E s) (ha : m s = .ok a s') : Q a s' := by
  unfold wp at h
  rw [ha] at h
  exact h

end Vfs

end Luksbox
