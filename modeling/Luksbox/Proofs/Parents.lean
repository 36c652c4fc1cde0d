import Luksbox.Proofs.NamespaceRuns

/-!
# Canonical parents

An inode records one parent, and the validator refuses a tree in which that
parent is not a directory. A file with several links can lose the entry that
its parent field stands for and live on under another name, so every operation
that removes an entry has to look after the parent of what it removed.

`unlink` does: a survivor is handed to a directory that still holds it. The
displaced target of a `rename` is handled like an unlink in every other respect
but not in this one. `Orphans` is the exact situation in which that matters;
`parents_valid` says that nothing else ever breaks a parent, and
`not_parentInv_of_orphans` that this always does.
-/

namespace Luksbox

open Lib Relation

/-- Every inode but the root has an entry in its parent. -/
def ParentInv (m : Inodes) : Prop := ∀ id i, m.get? id = some i → id ≠ rootId → m.Edge i.parent id

namespace ParentInv

variable {m m' : Inodes}

/-- The entries behind the parent pointers are all that has to survive. -/
theorem of_keep (h : ParentInv m)
    (hkeep : ∀ x j, m'.get? x = some j → x ≠ rootId → m'.Edge j.parent x ∨
      ∃ i, m.get? x = some i ∧ i.parent = j.parent ∧
        ∀ n, m.HasEntry i.parent n x → m'.Edge i.parent x) : ParentInv m' := by
  intro x j hj hx
  rcases hkeep x j hj hx with hedge | ⟨i, hi, hp, hold⟩
  · exact hedge
  · obtain ⟨n, hn⟩ := h x i hi hx
    exact hp ▸ hold n hn

/-- An edit of one inode that keeps its parent and its entries. -/
theorem adjust (h : ParentInv m) {k : FileId} {f : Inode → Inode}
    (hf : ∀ i, (f i).parent = i.parent ∧ (f i).children = i.children) :
    ParentInv (m.adjust k f) := by
  refine h.of_keep fun x j hj _ => Or.inr ?_
  have hedge : ∀ d n c, m.HasEntry d n c → Inodes.Edge (m.adjust k f) d c :=
    fun d n c he => ⟨n, (Inodes.hasEntry_adjust fun i => (hf i).2).mpr he⟩
  rw [OrdMap.get?_adjust] at hj
  split at hj
  · obtain ⟨i, hi, rfl⟩ := Option.map_eq_some_iff.mp hj
    exact ⟨i, hi, (hf i).1.symm, fun n => hedge _ n x⟩
  · exact ⟨j, hj, rfl, fun n => hedge _ n x⟩

theorem entered (h : ParentInv m) {p id : FileId} {n : String} {node dir : Inode}
    (hid : m.get? id = none) (hp : m.get? p = some dir) (hn : dir.children.get? n = none)
    (hnode : node.parent = p) (hch : node.children = OrdMap.empty) :
    ParentInv (Inodes.putEntry (m.insert id node) p n id) := by
  have hne : p ≠ id := by
    rintro rfl
    rw [hid] at hp
    cases hp
  have hp' : (m.insert id node).get? p = some dir := by rw [OrdMap.get?_insert_of_ne hne, hp]
  have hentry : ∀ d l c, m.HasEntry d l c →
      Inodes.HasEntry (Inodes.putEntry (m.insert id node) p n id) d l c := by
    intro d l c he
    rw [Inodes.hasEntry_putEntry hp', Inodes.hasEntry_insert_fresh hid hch]
    split
    · next hdl =>
        obtain ⟨i, hi, hc⟩ := he
        obtain ⟨rfl, rfl⟩ := hdl
        rw [hp] at hi
        injection hi with hi
        rw [← hi, hn] at hc
        cases hc
    · exact he
  refine h.of_keep fun x j hj _ => ?_
  have hj : (Inodes.putEntry (m.insert id node) p n id).get? x = some j := hj
  unfold Inodes.putEntry at hj
  rw [OrdMap.get?_adjust, OrdMap.get?_insert] at hj
  by_cases hx : x = id
  · subst hx
    rw [if_neg hne.symm, if_pos rfl] at hj
    injection hj with hj
    subst hj
    left
    refine ⟨n, (Inodes.hasEntry_putEntry hp').mpr ?_⟩
    rw [if_pos ⟨hnode, rfl⟩]
  · right
    rw [if_neg hx] at hj
    split at hj
    · obtain ⟨i, hi, rfl⟩ := Option.map_eq_some_iff.mp hj
      exact ⟨i, hi, rfl, fun l hl => ⟨l, hentry _ l x hl⟩⟩
    · exact ⟨j, hj, rfl, fun l hl => ⟨l, hentry _ l x hl⟩⟩

theorem putEntry_new (h : ParentInv m) {p id : FileId} {n : String} {dir : Inode}
    (hp : m.get? p = some dir) (hn : dir.children.get? n = none) :
    ParentInv (m.putEntry p n id) := by
  have hentry : ∀ d l c, m.HasEntry d l c → (m.putEntry p n id).HasEntry d l c := by
    intro d l c he
    rw [Inodes.hasEntry_putEntry hp]
    split
    · next hdl =>
        obtain ⟨i, hi, hc⟩ := he
        obtain ⟨rfl, rfl⟩ := hdl
        rw [hp] at hi
        injection hi with hi
        rw [← hi, hn] at hc
        cases hc
    · exact he
  refine h.of_keep fun x j hj _ => Or.inr ?_
  have hj : OrdMap.get? (m.adjust p _) x = some j := hj
  rw [OrdMap.get?_adjust] at hj
  split at hj
  · obtain ⟨i, hi, rfl⟩ := Option.map_eq_some_iff.mp hj
    exact ⟨i, hi, rfl, fun l hl => ⟨l, hentry _ l x hl⟩⟩
  · exact ⟨j, hj, rfl, fun l hl => ⟨l, hentry _ l x hl⟩⟩

/-- The inodes other than the one whose entry was cut keep their parents. -/
theorem get?_cutEntry {p x : FileId} {n : String} {j : Inode}
    (hj : (m.cutEntry p n).get? x = some j) : ∃ i, m.get? x = some i ∧ i.parent = j.parent := by
  unfold Inodes.cutEntry at hj
  rw [OrdMap.get?_adjust] at hj
  split at hj
  · obtain ⟨i, hi, rfl⟩ := Option.map_eq_some_iff.mp hj
    exact ⟨i, hi, rfl⟩
  · exact ⟨j, hj, rfl⟩

theorem edge_cutEntry_of_ne {p x id d : FileId} {n l : String} (he : m.HasEntry p n id)
    (hx : x ≠ id) (hl : m.HasEntry d l x) : (m.cutEntry p n).Edge d x := by
  refine ⟨l, Inodes.hasEntry_cutEntry.mpr ⟨?_, hl⟩⟩
  rintro ⟨rfl, rfl⟩
  obtain ⟨i, hi, hc⟩ := he
  obtain ⟨i', hi', hc'⟩ := hl
  rw [hi] at hi'
  injection hi' with hi'
  rw [← hi', hc] at hc'
  injection hc' with hc'
  exact hx hc'.symm

/-- The last entry of a leaf goes with the leaf. -/
theorem dropNode (h : ParentInv m) {p id : FileId} {n : String} (he : m.HasEntry p n id)
    (hleaf : ∀ l c, ¬ m.HasEntry id l c) : ParentInv (OrdMap.erase (m.cutEntry p n) id) := by
  have hleaf' : ∀ l c, ¬ (m.cutEntry p n).HasEntry id l c :=
    fun l c hc => hleaf l c (Inodes.hasEntry_cutEntry.mp hc).2
  refine h.of_keep fun x j hj _ => Or.inr ?_
  obtain ⟨hx, hj⟩ := OrdMap.exists_of_get?_erase hj
  obtain ⟨i, hi, hp⟩ := get?_cutEntry hj
  refine ⟨i, hi, hp, fun l hl => ?_⟩
  obtain ⟨l', hl'⟩ := edge_cutEntry_of_ne he hx hl
  exact ⟨l', (Inodes.hasEntry_erase hleaf').mpr hl'⟩

end ParentInv

/-! ## A survivor of an unlink -/

theorem holdsEntry_iff {m : Inodes} {d id : FileId} {dir : Inode} (hd : m.get? d = some dir) :
    holdsEntry dir id = true ↔ dir.kind = .directory ∧ m.Edge d id := by
  unfold holdsEntry
  rw [Bool.and_eq_true, decide_eq_true_eq, List.contains_iff_mem, Inodes.edge_iff]
  refine and_congr_right fun _ => ⟨fun hmem => ⟨dir, hd, hmem⟩, ?_⟩
  rintro ⟨i, hi, hmem⟩
  rw [hd] at hi
  injection hi with hi
  exact hi ▸ hmem

/-- The search finds a directory that holds the inode, if there is one. -/
theorem directoryHolding_spec {t : DirectoryTree} (h : NsInv t.inodes) {d id : FileId}
    (he : t.inodes.Edge d id) :
    ∃ d', Vfs.directoryHolding t id = some d' ∧ t.inodes.Edge d' id := by
  unfold Vfs.directoryHolding
  obtain ⟨n, hn⟩ := he
  have hdir := hn
  obtain ⟨dir, hdir, -⟩ := hdir
  have hhold : holdsEntry dir id = true :=
    (holdsEntry_iff hdir).mpr ⟨h.dir_of_hasEntry hdir hn, n, hn⟩
  cases hf : t.inodes.values.find? fun dir => holdsEntry dir id with
  | none =>
      have := List.find?_eq_none.mp hf dir (OrdMap.mem_values_of_get? hdir)
      exact absurd hhold this
  | some dir' =>
      have hp := List.find?_some hf
      obtain ⟨d', hd'⟩ := OrdMap.mem_values_iff.mp (List.mem_of_find?_eq_some hf)
      refine ⟨dir'.id, rfl, ?_⟩
      rw [h.ids d' dir' hd']
      exact ((holdsEntry_iff hd').mp hp).2

theorem ParentInv.adopted {m : Inodes} {t : DirectoryTree} (hns : NsInv t.inodes)
    {p id : FileId} {n : String} (h : ParentInv m) (he : m.HasEntry p n id) (hroot : id ≠ rootId)
    (ht : t.inodes = (m.cutEntry p n).relink id (· - 1)) :
    ParentInv (Vfs.adopted t p id) := by
  -- every inode but the survivor keeps the entry in its parent
  have hentry : ∀ d l c, (m.cutEntry p n).HasEntry d l c → t.inodes.HasEntry d l c := by
    intro d l c hc
    rw [ht]
    exact Inodes.hasEntry_relink.mpr hc
  have hget : ∀ x j, t.inodes.get? x = some j → ∃ i, m.get? x = some i ∧ i.parent = j.parent := by
    intro x j hj
    rw [ht] at hj
    unfold Inodes.relink at hj
    rw [OrdMap.get?_adjust] at hj
    split at hj
    · obtain ⟨i, hi, rfl⟩ := Option.map_eq_some_iff.mp hj
      obtain ⟨i', hi', hp⟩ := get?_cutEntry hi
      exact ⟨i', hi', hp⟩
    · exact get?_cutEntry hj
  have hother : ∀ x j, t.inodes.get? x = some j → x ≠ rootId → x ≠ id → t.inodes.Edge j.parent x := by
    intro x j hj hroot hx
    obtain ⟨i, hi, hp⟩ := hget x j hj
    obtain ⟨l, hl⟩ := h x i hi hroot
    obtain ⟨l', hl'⟩ := edge_cutEntry_of_ne he hx hl
    exact ⟨l', hp ▸ hentry _ l' x hl'⟩
  unfold Vfs.adopted
  split
  · next hpar =>
      obtain ⟨i, hi, -⟩ := Option.map_eq_some_iff.mp hpar
      obtain ⟨d, l, hd⟩ := hns.exists_entry hi hroot
      obtain ⟨d', hd', hedge⟩ := directoryHolding_spec hns ⟨l, hd⟩
      rw [hd']
      intro x j hj hx
      have hj : OrdMap.get? (t.inodes.adjust id _) x = some j := hj
      have hback : ∀ a c, t.inodes.Edge a c → (t.inodes.reparent id d').Edge a c := by
        rintro a c ⟨l, hl⟩
        exact ⟨l, Inodes.hasEntry_reparent.mpr hl⟩
      rw [OrdMap.get?_adjust] at hj
      split at hj
      · next hxid =>
          obtain ⟨k, hk, rfl⟩ := Option.map_eq_some_iff.mp hj
          exact hback d' x (hxid ▸ hedge)
      · next hxid => exact hback _ x (hother x j hj hx hxid)
  · next hpar =>
      intro x j hj hx
      by_cases hxid : x = id
      · subst hxid
        obtain ⟨i, hi, hp⟩ := hget x j hj
        obtain ⟨l, hl⟩ := h x i hi hx
        -- its parent is another directory, whose entry was not the one cut
        refine ⟨l, hp ▸ hentry _ l x (Inodes.hasEntry_cutEntry.mpr ⟨?_, hl⟩)⟩
        rintro ⟨hip, -⟩
        exact hpar (by rw [hj, Option.map_some, ← hp, hip])
      · exact hother x j hj hx hxid

/-! ## Moves -/

namespace Inodes

variable {m : Inodes}

theorem hasEntry_moved {p q id d c : FileId} {n k l : String} {dir : Inode}
    (hq : m.get? q = some dir) :
    (Vfs.moved m p n q k id).HasEntry d l c ↔
      if d = q ∧ l = k then c = id else ¬ (d = p ∧ l = n) ∧ m.HasEntry d l c := by
  have hq' : ∃ dir', (m.cutEntry p n).get? q = some dir' := by
    unfold cutEntry
    rw [OrdMap.get?_adjust, hq]
    split
    · exact ⟨_, rfl⟩
    · exact ⟨_, rfl⟩
  obtain ⟨dir', hq'⟩ := hq'
  have hput : ((m.cutEntry p n).putEntry q k id).HasEntry d l c ↔
      if d = q ∧ l = k then c = id else ¬ (d = p ∧ l = n) ∧ m.HasEntry d l c := by
    rw [hasEntry_putEntry hq', hasEntry_cutEntry]
  unfold Vfs.moved
  split
  · exact hput
  · rw [hasEntry_reparent, hput]

/-- A move to another directory sets the parent of what moved, and nothing
else of any inode but its entries. -/
theorem get?_moved {p q id x : FileId} {n k : String} {j : Inode}
    (h : (Vfs.moved m p n q k id).get? x = some j) : ∃ i, m.get? x = some i ∧
      j.parent = if x = id ∧ p ≠ q then q else i.parent := by
  have hput : ∀ j, ((m.cutEntry p n).putEntry q k id).get? x = some j →
      ∃ i, m.get? x = some i ∧ j.parent = i.parent := by
    intro j hj
    unfold putEntry at hj
    rw [OrdMap.get?_adjust] at hj
    split at hj
    · obtain ⟨i, hi, rfl⟩ := Option.map_eq_some_iff.mp hj
      obtain ⟨i', hi', hp⟩ := ParentInv.get?_cutEntry hi
      exact ⟨i', hi', hp.symm⟩
    · obtain ⟨i', hi', hp⟩ := ParentInv.get?_cutEntry hj
      exact ⟨i', hi', hp.symm⟩
  unfold Vfs.moved at h
  split at h
  · next hpq =>
      obtain ⟨i, hi, hp⟩ := hput j h
      exact ⟨i, hi, by rw [if_neg fun hn => hn.2 hpq, hp]⟩
  · next hpq =>
      unfold reparent at h
      rw [OrdMap.get?_adjust] at h
      split at h
      · next hx =>
          obtain ⟨i, hi, rfl⟩ := Option.map_eq_some_iff.mp h
          obtain ⟨i', hi', -⟩ := hput i hi
          exact ⟨i', hi', by rw [if_pos ⟨hx, hpq⟩]⟩
      · next hx =>
          obtain ⟨i, hi, hp⟩ := hput j h
          exact ⟨i, hi, by rw [if_neg fun hn => hx hn.1, hp]⟩

end Inodes

theorem eq_of_hasEntry {m : Inodes} {d c c' : FileId} {n : String} (h : m.HasEntry d n c)
    (h' : m.HasEntry d n c') : c = c' := by
  obtain ⟨i, hi, hc⟩ := h
  obtain ⟨i', hi', hc'⟩ := h'
  rw [hi] at hi'
  injection hi' with hi'
  rw [← hi', hc] at hc'
  injection hc'

/-- A move keeps the parents unless it overwrites the only entry in its parent
of an inode that stays. -/
theorem ParentInv.moved {m : Inodes} (h : ParentInv m) {p q id : FileId} {n k : String}
    {dir : Inode} (he : m.HasEntry p n id) (hq : m.get? q = some dir)
    (hsafe : ∀ dst i, m.HasEntry q k dst → dst ≠ id → m.get? dst = some i → i.parent = q →
      ∃ l, l ≠ k ∧ m.HasEntry q l dst) : ParentInv (Vfs.moved m p n q k id) := by
  intro x j hj hx
  obtain ⟨i, hi, hpar⟩ := Inodes.get?_moved hj
  obtain ⟨l, hl⟩ := h x i hi hx
  by_cases hxid : x = id
  · subst hxid
    rw [hpar]
    by_cases hpq : p = q
    · rw [if_neg fun hn => hn.2 hpq]
      by_cases hcut : i.parent = p
      · refine ⟨k, (Inodes.hasEntry_moved hq).mpr ?_⟩
        rw [if_pos ⟨hcut.trans hpq, rfl⟩]
      · refine ⟨l, (Inodes.hasEntry_moved hq).mpr ?_⟩
        rw [if_neg fun hn => hcut (hn.1.trans hpq.symm)]
        exact ⟨fun hn => hcut hn.1, hl⟩
    · rw [if_pos ⟨rfl, hpq⟩]
      refine ⟨k, (Inodes.hasEntry_moved hq).mpr ?_⟩
      rw [if_pos ⟨rfl, rfl⟩]
  · rw [hpar, if_neg fun hn => hxid hn.1]
    -- an entry of something else is not the one that moved
    have hkeep : ∀ l', ¬ (i.parent = q ∧ l' = k) → m.HasEntry i.parent l' x →
        (Vfs.moved m p n q k id).Edge i.parent x := by
      intro l' hne hl'
      refine ⟨l', (Inodes.hasEntry_moved hq).mpr ?_⟩
      rw [if_neg hne]
      refine ⟨?_, hl'⟩
      rintro ⟨hip, rfl⟩
      exact hxid (eq_of_hasEntry hl' (hip ▸ he))
    by_cases hover : i.parent = q ∧ l = k
    · obtain ⟨hip, rfl⟩ := hover
      obtain ⟨l', hne, hl'⟩ := hsafe x i (hip ▸ hl) hxid hi hip
      exact hkeep l' (fun hn => hne hn.2) (hip ▸ hl')
    · exact hkeep l hover hl

/-! ## Which renames orphan a link -/

/-- The call renames over a file that has other links, whose parent is the
directory renamed into, and which has no second entry there. -/
def Orphans (t : DirectoryTree) : Op → Prop
  | .rename p n q k => ∃ dst i, t.inodes.HasEntry q k dst ∧ ¬ t.inodes.HasEntry p n dst ∧
      t.inodes.get? dst = some i ∧ 1 < i.linkCount ∧ i.parent = q ∧
      ∀ l, t.inodes.HasEntry q l dst → l = k
  | _ => False

namespace Vfs

variable {s s' : Vfs}

theorem parentInv_renamed (h : ParentInv s.tree.inodes) {p q : FileId} {n k : String}
    (hno : ¬ Orphans s.tree (.rename p n q k)) (hs : Renamed s p n q k s') :
    ParentInv s'.tree.inodes := by
  rcases hs with ⟨rfl, -⟩ | ⟨dir, id, he, hq, hdk, hout, hcase⟩
  · exact h
  rcases hcase with ⟨hname, rfl⟩ | ⟨dst, target, hname, hne, hdst, hemp, hcase⟩
  · refine h.moved he hq ?_
    rintro dst i ⟨j, hj, hc⟩
    rw [hq] at hj
    injection hj with hj
    rw [← hj, hname] at hc
    cases hc
  · have hdentry : s.tree.inodes.HasEntry q k dst := ⟨dir, hq, hname⟩
    have hleaf : ∀ l c, ¬ s.tree.inodes.HasEntry dst l c := by
      rintro l c ⟨j, hj, hc⟩
      rw [hdst] at hj
      injection hj with hj
      rw [← hj, OrdMap.isEmpty_iff.mp hemp l] at hc
      cases hc
    have hqd : q ≠ dst := fun hqd => hleaf k dst (hqd ▸ hdentry)
    rcases hcase with ⟨hlast, rfl⟩ | ⟨hmore, rfl⟩
    · have herase : ∀ {d l c}, Inodes.HasEntry (OrdMap.erase s.tree.inodes dst) d l c ↔
          s.tree.inodes.HasEntry d l c := Inodes.hasEntry_erase hleaf
      have hpar : ParentInv (OrdMap.erase s.tree.inodes dst) := by
        refine h.of_keep fun x j hj _ => Or.inr ?_
        exact ⟨j, (OrdMap.exists_of_get?_erase hj).2, rfl, fun l hl => ⟨l, herase.mpr hl⟩⟩
      have hq' : OrdMap.get? (OrdMap.erase s.tree.inodes dst) q = some dir := by
        rw [OrdMap.get?_erase_of_ne hqd, hq]
      refine hpar.moved (herase.mpr he) hq' ?_
      intro dst' i hd' _ hi
      have heq : dst' = dst := eq_of_hasEntry (herase.mp hd') hdentry
      exact absurd heq (OrdMap.exists_of_get?_erase hi).1
    · have hpar : ParentInv (s.tree.inodes.relink dst (· - 1)) := h.adjust fun _ => ⟨rfl, rfl⟩
      have hq' : (s.tree.inodes.relink dst (· - 1)).get? q = some dir :=
        (OrdMap.get?_adjust_of_ne hqd).trans hq
      refine hpar.moved (Inodes.hasEntry_relink.mpr he) hq' ?_
      intro dst' i hd' hne' hi hip
      have heq : dst' = dst := eq_of_hasEntry (Inodes.hasEntry_relink.mp hd') hdentry
      subst heq
      have htarget : target.parent = q := by
        have hi : OrdMap.get? (s.tree.inodes.adjust dst' _) dst' = some i := hi
        rw [OrdMap.get?_adjust_self, hdst] at hi
        injection hi with hi
        rw [← hi] at hip
        exact hip
      by_contra hall
      refine hno ⟨dst', target, hdentry, ?_, hdst, hmore, htarget, ?_⟩
      · intro hp
        exact hne (eq_of_hasEntry hp he)
      · intro l hl
        by_contra hlk
        exact hall ⟨l, hlk, Inodes.hasEntry_relink.mpr hl⟩

/-- And such a rename, if it returns, always leaves a parent without the
entry. -/
theorem not_parentInv_of_orphans (h : TreeInv s.tree) {p q : FileId} {n k : String}
    (horphan : Orphans s.tree (.rename p n q k)) (hs : Renamed s p n q k s') :
    ¬ ParentInv s'.tree.inodes := by
  obtain ⟨dst, i, hd, hsrc, hi, hmore, hpar, honly⟩ := horphan
  rcases hs with ⟨-, id, hp, hq⟩ | ⟨dir, id, he, hq, hdk, hout, hcase⟩
  · exact absurd (eq_of_hasEntry hd hq ▸ hp) hsrc
  have hdroot : dst ≠ rootId := (h.ns.resolve q k dst hd).1
  have hid : dst ≠ id := fun heq => hsrc (heq ▸ he)
  rcases hcase with ⟨hname, -⟩ | ⟨dst', target, hname, -, hdst, -, hcase⟩
  · obtain ⟨j, hj, hc⟩ := hd
    rw [hq] at hj
    injection hj with hj
    rw [← hj, hname] at hc
    cases hc
  · have heq : dst' = dst := eq_of_hasEntry ⟨dir, hq, hname⟩ hd
    subst heq
    rw [hi] at hdst
    injection hdst with hdst
    subst hdst
    rcases hcase with ⟨hlast, -⟩ | ⟨-, rfl⟩
    · omega
    · intro hinv
      have hqd : q ≠ dst' := by
        rintro rfl
        have hle := h.ns.entryCount_le_one ⟨k, hd⟩
        rw [h.ns.count q i hdroot hi] at hle
        omega
      have hq' : (s.tree.inodes.relink dst' (· - 1)).get? q = some dir :=
        (OrdMap.get?_adjust_of_ne hqd).trans hq
      have hex : ∃ j, (moved (s.tree.inodes.relink dst' (· - 1)) p n q k id).get? dst' = some j := by
        unfold moved
        have hrel : ∃ j, (s.tree.inodes.relink dst' (· - 1)).get? dst' = some j :=
          ⟨_, (OrdMap.get?_adjust_self).trans (by rw [hi]; rfl)⟩
        have hadj : ∀ (m : Inodes) (d : FileId) (f : Inode → Inode),
            (∃ j, m.get? dst' = some j) → ∃ j, OrdMap.get? (m.adjust d f) dst' = some j := by
          rintro m d f ⟨j, hj⟩
          rw [OrdMap.get?_adjust, hj]
          split
          · exact ⟨_, rfl⟩
          · exact ⟨_, rfl⟩
        split
        · exact hadj _ _ _ (hadj _ _ _ hrel)
        · exact hadj _ _ _ (hadj _ _ _ (hadj _ _ _ hrel))
      obtain ⟨j, hj⟩ := hex
      obtain ⟨i', hi', hjp⟩ := Inodes.get?_moved hj
      rw [if_neg fun hn => hid hn.1] at hjp
      have hi'par : i'.parent = q := by
        have hi' : OrdMap.get? (s.tree.inodes.adjust dst' _) dst' = some i' := hi'
        rw [OrdMap.get?_adjust_self, hi] at hi'
        injection hi' with hi'
        rw [← hi']
        exact hpar
      obtain ⟨l, hl⟩ := hinv dst' j hj hdroot
      rw [hjp, hi'par] at hl
      have hl := (Inodes.hasEntry_moved hq').mp hl
      split at hl
      · exact hid hl
      · next hne' =>
          exact hne' ⟨rfl, honly l (Inodes.hasEntry_relink.mp hl.2)⟩

/-! ## One call and runs -/

theorem parentInv_edited (htree : TreeInv s.tree) (h : ParentInv s.tree.inodes) {op : Op}
    (hno : ¬ Orphans s.tree op) (hs : Edited s op s') : ParentInv s'.tree.inodes := by
  have hentered : ∀ {parent id : FileId} {name : String} {node : FileId → Nat → Inode},
      Entered s parent name node id s' → ParentInv s'.tree.inodes := by
    rintro parent id name node ⟨-, hs', -, hnode, -, -, dir, hdir, hkind, hname⟩
    rw [hs']
    refine h.entered ?_ hdir hname (hnode.parent _ _) (hnode.children _ _)
    cases hget : s.tree.inodes.get? s.tree.nextFileId with
    | none => rfl
    | some i => exact absurd (htree.fresh _ i hget) (Nat.lt_irrefl _)
  cases op with
  | mkdir parent name =>
      obtain ⟨id, hs⟩ := hs
      exact hentered hs
  | create parent name mode =>
      obtain ⟨id, hs⟩ := hs
      exact hentered hs
  | symlink parent name target =>
      obtain ⟨id, hs⟩ := hs
      exact hentered hs
  | link targetId newParent newName =>
      obtain ⟨target, dir, htarget, hfile, hlt, hdir, hkind, hname, rfl⟩ := hs
      exact (h.putEntry_new hdir hname).adjust fun _ => ⟨rfl, rfl⟩
  | unlink parent name =>
      obtain ⟨dir, id, target, hdir, hkind, hname, htarget, htk, hcase⟩ := hs
      have hentry : s.tree.inodes.HasEntry parent name id := ⟨dir, hdir, hname⟩
      have hemp := htree.ns.leaf id target htarget htk
      rcases hcase with ⟨hlast, rfl⟩ | ⟨hmore, rfl⟩
      · refine h.dropNode hentry ?_
        rintro l c ⟨j, hj, hc⟩
        rw [htarget] at hj
        injection hj with hj
        rw [← hj, OrdMap.isEmpty_iff.mp hemp l] at hc
        cases hc
      · have hns := htree.ns.dropLink hentry htarget hemp hmore
        exact ParentInv.adopted (t := { s.tree with
          inodes := (s.tree.inodes.cutEntry parent name).relink id (· - 1) }) hns h hentry
          (htree.ns.resolve parent name id hentry).1 rfl
  | rmdir parent name =>
      obtain ⟨dir, id, target, hdir, hkind, hname, htarget, htk, hemp, rfl⟩ := hs
      refine h.dropNode ⟨dir, hdir, hname⟩ ?_
      rintro l c ⟨j, hj, hc⟩
      rw [htarget] at hj
      injection hj with hj
      rw [← hj, OrdMap.isEmpty_iff.mp hemp l] at hc
      cases hc
  | rename p n q k => exact parentInv_renamed h hno hs
  | chmod id mode =>
      obtain ⟨i, hi, rfl⟩ := hs
      exact h.adjust fun _ => ⟨rfl, rfl⟩
  | setMtime id mtimeNs =>
      obtain ⟨i, hi, rfl⟩ := hs
      exact h.adjust fun _ => ⟨rfl, rfl⟩
  | _ =>
      have hs : s' = s := hs
      rw [hs]
      exact h

theorem step_parentInv (htree : TreeInv s.tree) (h : ParentInv s.tree.inodes) {c : Call}
    (hop : c.op.isEdit = true) (hno : ¬ Orphans s.tree c.op) :
    ParentInv (s.step c).tree.inodes := by
  have henv : TreeInv (s.withEnv c.env).tree := htree
  have hpar : ParentInv (s.withEnv c.env).tree.inodes := h
  refine step_of_wp (P := fun s => ParentInv s.tree.inodes)
    (wp_mono (exec_edit_spec henv hop) (fun _ _ hs => ?_) ?_)
  · exact parentInv_edited henv hpar hno hs
  · rintro e s' ⟨rfl, -⟩
    exact hpar

/-- No step of the run orphans a link. -/
def NoOrphans (s : Vfs) : List Call → Prop
  | [] => True
  | c :: rest => ¬ Orphans s.tree c.op ∧ NoOrphans (s.step c) rest

theorem run_parentInv (htree : TreeInv s.tree) (h : ParentInv s.tree.inodes) {calls : List Call}
    (hops : ∀ c ∈ calls, c.op.isEdit = true) (hno : NoOrphans s calls) :
    ParentInv (s.run calls).tree.inodes := by
  induction calls generalizing s with
  | nil => exact h
  | cons c calls ih =>
      have hop := hops c List.mem_cons_self
      rw [run_cons]
      exact ih (step_edit htree hop).1 (step_parentInv htree h hop hno.1)
        (fun c' hc' => hops c' (List.mem_cons_of_mem _ hc')) hno.2

end Vfs

/-! ## Repaired trees -/

theorem mem_holder {t : DirectoryTree} {id h : FileId} (hh : holder t id = some h) :
    ∃ dir, t.inodes.get? h = some dir ∧ holdsEntry dir id = true := by
  unfold holder at hh
  obtain ⟨e, hf, rfl⟩ := Option.map_eq_some_iff.mp hh
  have hp : holdsEntry e.2 id = true := by
    have := List.find?_some hf
    exact this
  exact ⟨e.2, OrdMap.get?_eq_some_iff.mpr (List.mem_of_find?_eq_some hf), hp⟩

theorem exists_holder {t : DirectoryTree} {d id : FileId} {dir : Inode}
    (hd : t.inodes.get? d = some dir) (hhold : holdsEntry dir id = true) :
    ∃ h, holder t id = some h := by
  unfold holder
  cases hf : t.inodes.entries.find? fun entry => holdsEntry entry.2 id with
  | none =>
      have hnot := List.find?_eq_none.mp hf (d, dir) (OrdMap.get?_eq_some_iff.mp hd)
      exact absurd hhold hnot
  | some e => exact ⟨e.1, rfl⟩

/-- The repair touches parent fields only. -/
theorem repair_node {t : DirectoryTree} :
    (repairStaleParents t).inodes.mapVals Inode.node = t.inodes.mapVals Inode.node := by
  apply OrdMap.ext_get?
  intro k
  unfold repairStaleParents
  rw [OrdMap.get?_mapVals, OrdMap.get?_mapVals, OrdMap.get?_mapWithKey, Option.map_map]
  congr 1
  funext i
  simp only [Function.comp_apply]
  split
  · rfl
  · split
    · split
      · rfl
      · rfl
    · rfl

theorem TreeInv.repaired {t : DirectoryTree} (h : TreeInv t) : TreeInv (repairStaleParents t) := by
  refine ⟨h.ns.congr repair_node, ?_⟩
  intro id i hi
  obtain ⟨j, hj, -⟩ := OrdMap.exists_of_mapVals_eq repair_node hi
  exact h.fresh id j hj

theorem ParentInv.repaired {t : DirectoryTree} (h : NsInv t.inodes) :
    ParentInv (repairStaleParents t).inodes := by
  intro id j hj hid
  rw [Inodes.edge_congr repair_node]
  have hj : (t.inodes.mapWithKey _).get? id = some j := hj
  rw [OrdMap.get?_mapWithKey] at hj
  obtain ⟨i, hi, rfl⟩ := Option.map_eq_some_iff.mp hj
  rw [if_neg hid]
  split
  · -- stale: some directory holds an entry, and the first one is taken
    obtain ⟨d, n, hd⟩ := h.exists_entry hi hid
    have hdir := hd
    obtain ⟨dir, hdir, -⟩ := hdir
    obtain ⟨p, hp⟩ := exists_holder hdir
      ((holdsEntry_iff hdir).mpr ⟨h.dir_of_hasEntry hdir hd, n, hd⟩)
    rw [hp]
    obtain ⟨pdir, hpdir, hhold⟩ := mem_holder hp
    exact ((holdsEntry_iff hpdir).mp hhold).2
  · next hstale =>
      unfold isStale at hstale
      cases hp : t.inodes.get? i.parent with
      | none =>
          rw [hp] at hstale
          exact absurd rfl hstale
      | some pdir =>
          rw [hp] at hstale
          have hhold : holdsEntry pdir id = true := by simpa using hstale
          exact ((holdsEntry_iff hp).mp hhold).2

theorem ParentInv.new : ParentInv DirectoryTree.new.inodes := by
  intro id i hi hid
  have hi : (OrdMap.insert OrdMap.empty rootId DirectoryTree.newRoot).get? id = some i := hi
  rw [OrdMap.get?_insert_of_ne hid] at hi
  cases hi

/-- A fresh tree, or one the validator accepted after its stale parents were
repaired. -/
def StartsRepaired (s : Vfs) : Prop :=
  s.tree = DirectoryTree.new ∨
    ∃ t, validateMetadataTree t s.dataOffset s.hideSize = .ok () ∧ EntriesFit t ∧
      s.tree = repairStaleParents t

theorem StartsRepaired.inv {s : Vfs} (h : StartsRepaired s) :
    TreeInv s.tree ∧ ParentInv s.tree.inodes := by
  rcases h with h | ⟨t, ht, hfit, h⟩
  · rw [h]
    exact ⟨TreeInv.new, ParentInv.new⟩
  · have hinv := TreeInv.ofValid (validate_iff.mp ht) hfit
    rw [h]
    exact ⟨hinv.repaired, ParentInv.repaired hinv.ns⟩

/-- Every inode but the root has a parent that is a directory with an entry for
it, and the validator's check of that field passes. -/
def ParentsValid (t : DirectoryTree) : Prop :=
  (∀ id i, t.inodes.get? id = some i → id ≠ rootId →
    ∃ dir n, t.inodes.get? i.parent = some dir ∧ dir.kind = .directory ∧
      dir.children.get? n = some id) ∧
  ∀ id i, t.inodes.get? id = some i → parentRefused t id i = false

theorem ParentInv.valid {t : DirectoryTree} (hns : NsInv t.inodes) (h : ParentInv t.inodes) :
    ParentsValid t := by
  have hdir : ∀ id i, t.inodes.get? id = some i → id ≠ rootId →
      ∃ dir n, t.inodes.get? i.parent = some dir ∧ dir.kind = .directory ∧
        dir.children.get? n = some id := by
    intro id i hi hid
    obtain ⟨n, dir, hdir, hn⟩ := h id i hi hid
    exact ⟨dir, n, hdir, hns.dir_of_hasEntry hdir ⟨dir, hdir, hn⟩, hn⟩
  refine ⟨hdir, ?_⟩
  intro id i hi
  unfold parentRefused
  by_cases hid : id = rootId
  · simp [hid]
  · obtain ⟨dir, n, hp, hk, -⟩ := hdir id i hi hid
    simp [hp, hk]

/-- In every run in which no rename orphans a link, every state reached has
valid parents. -/
theorem parents_valid {s : Vfs} (hs : StartsRepaired s) {calls : List Call}
    (hops : ∀ c ∈ calls, c.op.isNamespace = true) (hno : Vfs.NoOrphans s calls) :
    ParentsValid (s.run calls).tree := by
  have hedit : ∀ c ∈ calls, c.op.isEdit = true := fun c hc => isEdit_of_isNamespace (hops c hc)
  obtain ⟨htree, hpar⟩ := hs.inv
  exact (Vfs.run_parentInv htree hpar hedit hno).valid (Vfs.run_edits htree hedit).ns

/-- Directories `a` and `b`, a file linked as `a/x` and `b/y`, and a file
`a/z`. -/
def Vfs.twoLinks : List Call :=
  [(Op.mkdir 1 "a").quiet, (Op.mkdir 1 "b").quiet, (Op.create 2 "x" 0o644).quiet,
    (Op.link 4 3 "y").quiet, (Op.create 2 "z" 0o644).quiet]

/-- After a rename of `a/z` over `a/x` the linked file lives on as `b/y` only,
and its parent is still `a`. -/
theorem parents_not_valid :
    ¬ ∀ calls : List Call, (∀ c ∈ calls, c.op.isNamespace = true) →
      ParentsValid (Vfs.plain.run calls).tree := by
  intro hall
  have h := (hall (Vfs.twoLinks ++ [(Op.rename 2 "z" 2 "x").quiet]) (by decide)).1
  have hfile : ∃ i, (Vfs.plain.run (Vfs.twoLinks ++
      [(Op.rename 2 "z" 2 "x").quiet])).tree.inodes.get? 4 = some i ∧ i.parent = 2 := ⟨_, rfl, rfl⟩
  obtain ⟨i, hi, hp⟩ := hfile
  obtain ⟨dir, n, hdir, -, hn⟩ := h 4 i hi (by decide)
  rw [hp] at hdir
  have hvals : ((Vfs.plain.run (Vfs.twoLinks ++
      [(Op.rename 2 "z" 2 "x").quiet])).tree.inodes.get? 2).map (fun d => d.children.values) =
      some [5] := by decide
  rw [hdir, Option.map_some] at hvals
  injection hvals with hvals
  have hmem := OrdMap.mem_values_of_get? hn
  rw [hvals] at hmem
  exact absurd hmem (by decide)

/-- Without that rename the run is covered: here the file is displaced in the
directory that is not its parent. -/
theorem parents_valid_plain :
    ParentsValid (Vfs.plain.run (Vfs.twoLinks ++ [(Op.rename 2 "z" 3 "y").quiet])).tree := by
  refine parents_valid (Or.inl rfl) (by decide) ?_
  refine ⟨id, id, id, id, id, ?_, trivial⟩
  rintro ⟨dst, i, hd, hsrc, hi, hmore, hpar, honly⟩
  obtain ⟨dir, hdir, hy⟩ := hd
  have hdst : dst = 4 := by
    have hget : ((Vfs.plain.run Vfs.twoLinks).tree.inodes.get? 3).bind
        (fun d => d.children.get? "y") = some 4 := by decide
    have hdir : (Vfs.plain.run Vfs.twoLinks).tree.inodes.get? 3 = some dir := hdir
    rw [hdir, Option.bind_some, hy] at hget
    injection hget
  have hfour : ((Vfs.plain.run Vfs.twoLinks).tree.inodes.get? 4).map Inode.parent = some 2 := by
    decide
  have hi : (Vfs.plain.run Vfs.twoLinks).tree.inodes.get? dst = some i := hi
  rw [hdst] at hi
  rw [hi, Option.map_some, hpar] at hfour
  exact absurd hfour (by decide)

end Luksbox
