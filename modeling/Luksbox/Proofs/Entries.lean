import Luksbox.Proofs.Steps

/-!
# Directory entries as a graph

The directory operations edit the inode map in four ways: put an entry into a
directory, cut one out of it, change a link count, change a parent pointer.
This file says what each of the four does to the three things the namespace
invariants are about: which entries there are (`HasEntry`), how many name a
given inode (`entryCount`), and the other fields of the inodes.
-/

namespace Luksbox

open Lib Relation

namespace Inodes

/-! ## Entries and their count -/

/-- Directory `d` has an entry `n` that names `c`. -/
def HasEntry (m : Inodes) (d : FileId) (n : String) (c : FileId) : Prop :=
  ∃ i, m.get? d = some i ∧ i.children.get? n = some c

/-- What all entries name, with repetitions. -/
def childIds (m : Inodes) : List FileId := m.values.flatMap fun i => i.children.values

def entryCount (m : Inodes) (id : FileId) : Nat := m.childIds.count id

/-- `d` has some entry for `c`. -/
def Edge (m : Inodes) (d c : FileId) : Prop := ∃ n, m.HasEntry d n c

theorem edge_iff {m : Inodes} {d c : FileId} :
    m.Edge d c ↔ ∃ i, m.get? d = some i ∧ c ∈ i.children.values := by
  constructor
  · rintro ⟨n, i, hi, hn⟩
    exact ⟨i, hi, OrdMap.mem_values_of_get? hn⟩
  · rintro ⟨i, hi, hc⟩
    obtain ⟨n, hn⟩ := OrdMap.mem_values_iff.mp hc
    exact ⟨n, i, hi, hn⟩

theorem mem_childIds_iff {m : Inodes} {c : FileId} : c ∈ m.childIds ↔ ∃ d, m.Edge d c := by
  unfold childIds
  rw [List.mem_flatMap]
  constructor
  · rintro ⟨i, hi, hc⟩
    obtain ⟨d, hd⟩ := OrdMap.mem_values_iff.mp hi
    exact ⟨d, edge_iff.mpr ⟨i, hd, hc⟩⟩
  · rintro ⟨d, hd⟩
    obtain ⟨i, hi, hc⟩ := edge_iff.mp hd
    exact ⟨i, OrdMap.mem_values_of_get? hi, hc⟩

theorem entryCount_pos_iff {m : Inodes} {c : FileId} : 0 < m.entryCount c ↔ ∃ d, m.Edge d c := by
  unfold entryCount
  rw [List.count_pos_iff, mem_childIds_iff]

theorem count_childIds_of_get? {m : Inodes} {d x : FileId} {i : Inode} (h : m.get? d = some i) :
    m.entryCount x = i.children.values.count x + entryCount (m.erase d) x :=
  OrdMap.tally_of_get? h

/-- Two directories with an entry for one inode make two entries. -/
theorem eq_of_entryCount_le_one {m : Inodes} {d d' c : FileId} (hcount : m.entryCount c ≤ 1)
    (h : m.Edge d c) (h' : m.Edge d' c) : d = d' := by
  obtain ⟨i, hi, hc⟩ := edge_iff.mp h
  obtain ⟨i', hi', hc'⟩ := edge_iff.mp h'
  by_cases hdd : d = d'
  · exact hdd
  · have hcnt := count_childIds_of_get? (x := c) hi
    have hin : 0 < i.children.values.count c := List.count_pos_iff.mpr hc
    have hrest : 0 < entryCount (m.erase d) c := by
      refine entryCount_pos_iff.mpr ⟨d', edge_iff.mpr ⟨i', ?_, hc'⟩⟩
      rw [OrdMap.get?_erase_of_ne (fun he => hdd he.symm), hi']
    omega

/-! ## What the namespace sees -/

/-- The part of an inode that decides the shape of the tree. -/
structure Node where
  id : FileId
  kind : InodeKind
  children : OrdMap String FileId
  linkCount : Nat

end Inodes

def Inode.node (i : Inode) : Inodes.Node := ⟨i.id, i.kind, i.children, i.linkCount⟩

namespace Inodes

theorem hasEntry_congr {m m' : Inodes} (h : m'.mapVals Inode.node = m.mapVals Inode.node)
    {d c : FileId} {n : String} : m'.HasEntry d n c ↔ m.HasEntry d n c := by
  have himp : ∀ {a b : Inodes}, b.mapVals Inode.node = a.mapVals Inode.node →
      b.HasEntry d n c → a.HasEntry d n c := by
    rintro a b hab ⟨i, hi, hn⟩
    obtain ⟨j, hj, hij⟩ := OrdMap.exists_of_mapVals_eq hab hi
    have hch : i.children = j.children := congrArg Node.children hij
    exact ⟨j, hj, hch ▸ hn⟩
  exact ⟨himp h, himp h.symm⟩

theorem edge_congr {m m' : Inodes} (h : m'.mapVals Inode.node = m.mapVals Inode.node) :
    m'.Edge = m.Edge := by
  funext d c
  exact propext (exists_congr fun n => hasEntry_congr h)

theorem childIds_congr {m m' : Inodes} (h : m'.mapVals Inode.node = m.mapVals Inode.node) :
    m'.childIds = m.childIds := by
  have hview : ∀ a : Inodes,
      a.childIds = (a.mapVals Inode.node).values.flatMap fun v => v.children.values := by
    intro a
    rw [OrdMap.values_mapVals, List.flatMap_map]
    rfl
  rw [hview, hview, h]

theorem entryCount_congr {m m' : Inodes} (h : m'.mapVals Inode.node = m.mapVals Inode.node)
    {x : FileId} : m'.entryCount x = m.entryCount x := by
  unfold entryCount
  rw [childIds_congr h]

/-! ## The edits -/

def putEntry (m : Inodes) (d : FileId) (n : String) (c : FileId) : Inodes :=
  m.adjust d fun i => { i with children := i.children.insert n c }

def cutEntry (m : Inodes) (d : FileId) (n : String) : Inodes :=
  m.adjust d fun i => { i with children := i.children.erase n }

def relink (m : Inodes) (id : FileId) (f : Nat → Nat) : Inodes :=
  m.adjust id fun i => { i with linkCount := f i.linkCount }

def reparent (m : Inodes) (id parent : FileId) : Inodes :=
  m.adjust id fun i => { i with parent := parent }

/-- An edit of one inode that keeps its entries. -/
theorem hasEntry_adjust {m : Inodes} {k : FileId} {f : Inode → Inode}
    (hf : ∀ i, (f i).children = i.children) {d c : FileId} {n : String} :
    HasEntry (m.adjust k f) d n c ↔ m.HasEntry d n c := by
  unfold HasEntry
  rw [OrdMap.get?_adjust]
  split
  · next h =>
      cases hg : m.get? d with
      | none => simp
      | some i => simp [hf]
  · rfl

theorem hasEntry_relink {m : Inodes} {k d c : FileId} {f : Nat → Nat} {n : String} :
    HasEntry (m.relink k f) d n c ↔ m.HasEntry d n c := by
  refine hasEntry_adjust ?_
  intro i
  rfl

theorem hasEntry_reparent {m : Inodes} {k parent d c : FileId} {n : String} :
    HasEntry (m.reparent k parent) d n c ↔ m.HasEntry d n c := by
  refine hasEntry_adjust ?_
  intro i
  rfl

theorem hasEntry_putEntry {m : Inodes} {d : FileId} {i : Inode} (hd : m.get? d = some i)
    {n : String} {c d' : FileId} {n' : String} {c' : FileId} :
    HasEntry (m.putEntry d n c) d' n' c' ↔
      if d' = d ∧ n' = n then c' = c else m.HasEntry d' n' c' := by
  unfold HasEntry putEntry
  rw [OrdMap.get?_adjust]
  by_cases hdd : d' = d
  · subst hdd
    rw [if_pos rfl, hd]
    by_cases hnn : n' = n
    · subst hnn
      simp [eq_comm]
    · simp [OrdMap.get?_insert_of_ne hnn, hnn]
  · rw [if_neg hdd, if_neg (fun h => hdd h.1)]

theorem hasEntry_cutEntry {m : Inodes} {d : FileId} {n : String} {d' : FileId} {n' : String}
    {c' : FileId} :
    HasEntry (m.cutEntry d n) d' n' c' ↔ ¬ (d' = d ∧ n' = n) ∧ m.HasEntry d' n' c' := by
  unfold HasEntry cutEntry
  rw [OrdMap.get?_adjust]
  by_cases hdd : d' = d
  · subst hdd
    rw [if_pos rfl]
    cases hg : m.get? d' with
    | none => simp
    | some i =>
        by_cases hnn : n' = n
        · subst hnn
          simp
        · simp [OrdMap.get?_erase_of_ne hnn, hnn]
  · rw [if_neg hdd]
    simp [hdd]

/-- An inode without entries can go, or come, without changing the entries. -/
theorem hasEntry_erase {m : Inodes} {k : FileId} (hk : ∀ n c, ¬ m.HasEntry k n c)
    {d c : FileId} {n : String} : HasEntry (m.erase k) d n c ↔ m.HasEntry d n c := by
  unfold HasEntry at hk ⊢
  rw [OrdMap.get?_erase]
  split
  · next h =>
      subst h
      simp only [reduceCtorEq, false_and, exists_false, false_iff]
      exact hk n c
  · rfl

theorem hasEntry_insert_fresh {m : Inodes} {k : FileId} {i : Inode} (hk : m.get? k = none)
    (hi : i.children = OrdMap.empty) {d c : FileId} {n : String} :
    HasEntry (m.insert k i) d n c ↔ m.HasEntry d n c := by
  unfold HasEntry
  rw [OrdMap.get?_insert]
  split
  · next h =>
      subst h
      simp [hk, hi]
  · rfl

/-! ## Counting -/

theorem values_insert_of_none {m : OrdMap String FileId} {n : String} {c : FileId}
    (h : m.get? n = none) : (m.insert n c).values.Perm (c :: m.values) := by
  have hp := (OrdMap.perm_insert (m := m) (k := n) (v := c)).map Prod.snd
  rwa [OrdMap.erase_of_get?_none h] at hp

theorem values_erase_of_some {m : OrdMap String FileId} {n : String} {c : FileId}
    (h : m.get? n = some c) : m.values.Perm (c :: (m.erase n).values) :=
  (OrdMap.perm_of_get? h).map Prod.snd

theorem entryCount_adjust {m : Inodes} {k x : FileId} {f : Inode → Inode} {i : Inode}
    (hk : m.get? k = some i) :
    entryCount (m.adjust k f) x + i.children.values.count x =
      m.entryCount x + (f i).children.values.count x := OrdMap.tally_adjust hk

theorem entryCount_adjust_of_children_eq {m : Inodes} {k x : FileId} {f : Inode → Inode}
    (hf : ∀ i, (f i).children = i.children) : entryCount (m.adjust k f) x = m.entryCount x :=
  OrdMap.tally_adjust_of_eq fun i => by rw [hf i]

theorem entryCount_relink {m : Inodes} {k x : FileId} {f : Nat → Nat} :
    entryCount (m.relink k f) x = m.entryCount x := by
  refine entryCount_adjust_of_children_eq ?_
  intro i
  rfl

theorem entryCount_putEntry_new {m : Inodes} {d c x : FileId} {n : String} {i : Inode}
    (hd : m.get? d = some i) (hn : i.children.get? n = none) :
    entryCount (m.putEntry d n c) x = m.entryCount x + if x = c then 1 else 0 := by
  have h : entryCount (m.putEntry d n c) x + i.children.values.count x =
      m.entryCount x + (i.children.insert n c).values.count x := entryCount_adjust hd
  have hp := (values_insert_of_none (c := c) hn).count_eq x
  rw [List.count_cons] at hp
  simp only [beq_iff_eq, eq_comm (a := c)] at hp
  omega

theorem entryCount_cutEntry {m : Inodes} {d c x : FileId} {n : String}
    (h : m.HasEntry d n c) :
    (entryCount (m.cutEntry d n) x + if x = c then 1 else 0) = m.entryCount x := by
  obtain ⟨i, hi, hn⟩ := h
  have hadj : entryCount (m.cutEntry d n) x + i.children.values.count x =
      m.entryCount x + (i.children.erase n).values.count x := entryCount_adjust hi
  have hp := (values_erase_of_some hn).count_eq x
  rw [List.count_cons] at hp
  simp only [beq_iff_eq, eq_comm (a := c)] at hp
  omega

theorem entryCount_erase {m : Inodes} {k x : FileId} {i : Inode} (hk : m.get? k = some i)
    (hi : i.children.isEmpty = true) : entryCount (m.erase k) x = m.entryCount x := by
  have hv : i.children.values = [] := by
    rw [List.eq_nil_iff_forall_not_mem]
    intro c hc
    obtain ⟨n, hn⟩ := OrdMap.mem_values_iff.mp hc
    rw [OrdMap.isEmpty_iff.mp hi n] at hn
    cases hn
  rw [count_childIds_of_get? hk, hv]
  simp

theorem entryCount_insert_fresh {m : Inodes} {k x : FileId} {i : Inode} (hk : m.get? k = none)
    (hi : i.children = OrdMap.empty) : entryCount (m.insert k i) x = m.entryCount x := by
  rw [count_childIds_of_get? (d := k) (OrdMap.get?_insert_self), OrdMap.erase_insert,
    OrdMap.erase_of_get?_none hk, hi]
  simp [OrdMap.values, OrdMap.empty]

end Inodes

end Luksbox
