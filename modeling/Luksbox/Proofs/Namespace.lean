import Luksbox.Proofs.Entries

/-!
# The namespace is a tree

`NsInv` is what the directory operations keep. It says that the entries resolve
and are counted exactly, and that the root reaches everything; that there is no
cycle follows (`NsInv.acyclic`): walking back from a node on a cycle leads to
directories only, each with the one entry that names it, so the walk back and
the path from the root coincide and the root itself would have an entry.

The edits are proved one at a time: a new leaf, one more link to a file, one
entry fewer for a leaf, and the move of a subtree to a place outside it. Each
operation is one of these or two in a row.
-/

namespace Luksbox

open Lib Relation

/-- Entries resolve and are counted; everything hangs off the root. -/
structure NsInv (m : Inodes) : Prop where
  root : ∃ r, m.get? rootId = some r ∧ r.kind = .directory
  ids : ∀ id i, m.get? id = some i → i.id = id
  leaf : ∀ id i, m.get? id = some i → i.kind ≠ .directory → i.children.isEmpty = true
  resolve : ∀ d n c, m.HasEntry d n c → c ≠ rootId ∧ ∃ i, m.get? c = some i
  count : ∀ id i, id ≠ rootId → m.get? id = some i → m.entryCount id = i.linkCount
  single : ∀ id i, m.get? id = some i → i.kind ≠ .file → i.linkCount = 1
  reach : ∀ id i, m.get? id = some i → ReflTransGen m.Edge rootId id

namespace NsInv

variable {m : Inodes}

theorem rootCount (h : NsInv m) : m.entryCount rootId = 0 := by
  by_contra hne
  obtain ⟨d, n, hd⟩ := Inodes.entryCount_pos_iff.mp (Nat.pos_of_ne_zero hne)
  exact (h.resolve d n rootId hd).1 rfl

/-- Only directories have entries. -/
theorem dir_of_hasEntry (h : NsInv m) {d c : FileId} {n : String} {i : Inode}
    (hd : m.get? d = some i) (he : m.HasEntry d n c) : i.kind = .directory := by
  by_contra hk
  obtain ⟨j, hj, hn⟩ := he
  rw [hd] at hj
  injection hj with hj
  subst hj
  rw [OrdMap.isEmpty_iff.mp (h.leaf d i hd hk) n] at hn
  cases hn

/-- An inode with children has exactly one entry, or is the root. -/
theorem entryCount_le_one (h : NsInv m) {d c : FileId} (he : m.Edge d c) :
    m.entryCount d ≤ 1 := by
  obtain ⟨n, hn⟩ := he
  obtain ⟨i, hi, hc⟩ := hn
  have hdir := h.dir_of_hasEntry hi ⟨i, hi, hc⟩
  by_cases hroot : d = rootId
  · rw [hroot, h.rootCount]
    omega
  · rw [h.count d i hroot hi, h.single d i hi (by rw [hdir]; decide)]

theorem acyclic (h : NsInv m) (id : FileId) : ¬ TransGen m.Edge id id := by
  -- first for the nodes the root reaches, along the path from it
  have hreached : ∀ x, ReflTransGen m.Edge rootId x → ¬ TransGen m.Edge x x := by
    intro x hx
    induction hx with
    | refl =>
        intro hcyc
        obtain ⟨d, -, n, hd⟩ := TransGen.tail'_iff.mp hcyc
        exact (h.resolve d n rootId hd).1 rfl
    | @tail b c _ hbc ih =>
        intro hcyc
        obtain ⟨e, he, -⟩ := TransGen.head'_iff.mp hcyc
        obtain ⟨d, hcd, hdc⟩ := TransGen.tail'_iff.mp hcyc
        have hbd : b = d :=
          Inodes.eq_of_entryCount_le_one (h.entryCount_le_one he) hbc hdc
        subst hbd
        exact ih (TransGen.head' hbc hcd)
  intro hcyc
  obtain ⟨e, ⟨n, i, hi, -⟩, -⟩ := TransGen.head'_iff.mp hcyc
  exact hreached id (h.reach id i hi) hcyc

/-- A non-root inode is named by some entry. -/
theorem exists_entry (h : NsInv m) {id : FileId} {i : Inode} (hi : m.get? id = some i)
    (hroot : id ≠ rootId) : ∃ d n, m.HasEntry d n id := by
  rcases ReflTransGen.cases_tail (h.reach id i hi) with heq | ⟨d, -, n, hd⟩
  · exact absurd heq hroot
  · exact ⟨d, n, hd⟩

theorem linkCount_pos (h : NsInv m) {id : FileId} {i : Inode} (hi : m.get? id = some i)
    (hroot : id ≠ rootId) : 0 < i.linkCount := by
  obtain ⟨d, n, hd⟩ := h.exists_entry hi hroot
  rw [← h.count id i hroot hi]
  exact Inodes.entryCount_pos_iff.mpr ⟨d, n, hd⟩

/-! ## Changes the namespace does not see -/

theorem congr {m' : Inodes} (h : NsInv m) (hc : m'.mapVals Inode.node = m.mapVals Inode.node) :
    NsInv m' := by
  have hback : ∀ id j, m'.get? id = some j → ∃ i, m.get? id = some i ∧
      j.id = i.id ∧ j.kind = i.kind ∧ j.children = i.children ∧ j.linkCount = i.linkCount := by
    intro id j hj
    obtain ⟨i, hi, hv⟩ := OrdMap.exists_of_mapVals_eq hc hj
    exact ⟨i, hi, congrArg Inodes.Node.id hv, congrArg Inodes.Node.kind hv,
      congrArg Inodes.Node.children hv, congrArg Inodes.Node.linkCount hv⟩
  constructor
  · obtain ⟨r, hr, hk⟩ := h.root
    obtain ⟨r', hr', hv⟩ := OrdMap.exists_of_mapVals_eq hc.symm hr
    exact ⟨r', hr', (congrArg Inodes.Node.kind hv).symm.trans hk⟩
  · intro id j hj
    obtain ⟨i, hi, hid, -⟩ := hback id j hj
    rw [hid, h.ids id i hi]
  · intro id j hj hk
    obtain ⟨i, hi, -, hkind, hch, -⟩ := hback id j hj
    rw [hch]
    exact h.leaf id i hi (hkind ▸ hk)
  · intro d n c he
    obtain ⟨hne, i, hi⟩ := h.resolve d n c ((Inodes.hasEntry_congr hc).mp he)
    obtain ⟨j, hj, -⟩ := OrdMap.exists_of_mapVals_eq hc.symm hi
    exact ⟨hne, j, hj⟩
  · intro id j hroot hj
    obtain ⟨i, hi, -, -, -, hlink⟩ := hback id j hj
    rw [Inodes.entryCount_congr hc, hlink, h.count id i hroot hi]
  · intro id j hj hk
    obtain ⟨i, hi, -, hkind, -, hlink⟩ := hback id j hj
    rw [hlink]
    exact h.single id i hi (hkind ▸ hk)
  · intro id j hj
    obtain ⟨i, hi, -⟩ := hback id j hj
    rw [Inodes.edge_congr hc]
    exact h.reach id i hi

theorem adjust (h : NsInv m) {k : FileId} {f : Inode → Inode} (hf : ∀ i, (f i).node = i.node) :
    NsInv (m.adjust k f) :=
  h.congr (OrdMap.mapVals_adjust_of_eq fun i _ => hf i)

theorem reparent (h : NsInv m) (id parent : FileId) : NsInv (m.reparent id parent) :=
  h.adjust fun _ => rfl

/-! ## A new leaf -/

theorem addNode (h : NsInv m) {id p : FileId} {n : String} {node dir : Inode}
    (hid : m.get? id = none) (hp : m.get? p = some dir) (hdir : dir.kind = .directory)
    (hn : dir.children.get? n = none) (hnode : node.id = id)
    (hch : node.children = OrdMap.empty) (hlink : node.linkCount = 1) :
    NsInv (Inodes.putEntry (m.insert id node) p n id) := by
  have hpid : p ≠ id := by
    intro he
    rw [he, hid] at hp
    cases hp
  have hroot : id ≠ rootId := by
    intro he
    obtain ⟨r, hr, -⟩ := h.root
    rw [← he, hid] at hr
    cases hr
  have hp' : (m.insert id node).get? p = some dir := by
    rw [OrdMap.get?_insert_of_ne hpid, hp]
  have hget : ∀ x, (Inodes.putEntry (m.insert id node) p n id).get? x =
      if x = p then some { dir with children := dir.children.insert n id }
      else if x = id then some node else m.get? x := by
    intro x
    unfold Inodes.putEntry
    rw [OrdMap.get?_adjust, OrdMap.get?_insert]
    split
    · next he => rw [he, if_neg hpid, hp]; rfl
    · rfl
  have hentry : ∀ d k c, Inodes.HasEntry (Inodes.putEntry (m.insert id node) p n id) d k c ↔
      if d = p ∧ k = n then c = id else m.HasEntry d k c := by
    intro d k c
    rw [Inodes.hasEntry_putEntry hp']
    split
    · rfl
    · exact Inodes.hasEntry_insert_fresh hid hch
  have hnone : ∀ c, ¬ m.HasEntry p n c := by
    rintro c ⟨j, hj, hc⟩
    rw [hp] at hj
    injection hj with hj
    rw [← hj, hn] at hc
    cases hc
  have hkeep : ∀ d c, m.Edge d c → (Inodes.putEntry (m.insert id node) p n id).Edge d c := by
    rintro d c ⟨k, hk⟩
    refine ⟨k, (hentry d k c).mpr ?_⟩
    split
    · next he => exact absurd (he.1 ▸ he.2 ▸ hk) (hnone c)
    · exact hk
  have hcount : ∀ x, (Inodes.putEntry (m.insert id node) p n id).entryCount x =
      m.entryCount x + if x = id then 1 else 0 := by
    intro x
    rw [Inodes.entryCount_putEntry_new hp' hn, Inodes.entryCount_insert_fresh hid hch]
  have hreach : ∀ x, ReflTransGen m.Edge rootId x →
      ReflTransGen (Inodes.putEntry (m.insert id node) p n id).Edge rootId x :=
    fun x hx => ReflTransGen.mono hkeep _ _ hx
  constructor
  · obtain ⟨r, hr, hk⟩ := h.root
    rw [hget]
    split
    · next he =>
        rw [he, hp] at hr
        exact ⟨_, rfl, hdir⟩
    · rw [if_neg (fun he => hroot he.symm)]
      exact ⟨r, hr, hk⟩
  · intro x i hi
    rw [hget] at hi
    split at hi
    · next he =>
        injection hi with hi
        subst hi
        rw [he]
        exact h.ids p dir hp
    · split at hi
      · next he =>
          injection hi with hi
          subst hi
          rw [he, hnode]
      · exact h.ids x i hi
  · intro x i hi hk
    rw [hget] at hi
    split at hi
    · injection hi with hi
      subst hi
      exact absurd hdir hk
    · split at hi
      · injection hi with hi
        subst hi
        rw [hch]
        rfl
      · exact h.leaf x i hi hk
  · intro d k c hc
    have hc := (hentry d k c).mp hc
    split at hc
    · subst hc
      refine ⟨hroot, node, ?_⟩
      rw [hget, if_neg (fun he => hpid he.symm), if_pos rfl]
    · obtain ⟨hne, i, hi⟩ := h.resolve d k c hc
      refine ⟨hne, ?_⟩
      rw [hget]
      split
      · exact ⟨_, rfl⟩
      · split
        · exact ⟨_, rfl⟩
        · exact ⟨i, hi⟩
  · intro x i hxroot hi
    rw [hget] at hi
    rw [hcount]
    split at hi
    · next he =>
        injection hi with hi
        subst hi
        subst he
        rw [if_neg hpid]
        exact h.count x dir hxroot hp
    · split at hi
      · next he =>
          injection hi with hi
          subst hi
          subst he
          have hzero : m.entryCount x = 0 := by
            by_contra hne
            obtain ⟨d, k, hd⟩ := Inodes.entryCount_pos_iff.mp (Nat.pos_of_ne_zero hne)
            obtain ⟨-, i, hi⟩ := h.resolve d k x hd
            rw [hid] at hi
            cases hi
          rw [hzero, hlink, if_pos rfl]
      · next he =>
          rw [if_neg he]
          exact h.count x i hxroot hi
  · intro x i hi hk
    rw [hget] at hi
    split at hi
    · injection hi with hi
      subst hi
      exact h.single p dir hp hk
    · split at hi
      · injection hi with hi
        subst hi
        exact hlink
      · exact h.single x i hi hk
  · intro x i hi
    rw [hget] at hi
    split at hi
    · next he =>
        rw [he]
        exact hreach p (h.reach p dir hp)
    · split at hi
      · next he =>
          rw [he]
          refine (hreach p (h.reach p dir hp)).tail ⟨n, (hentry p n id).mpr ?_⟩
          rw [if_pos ⟨rfl, rfl⟩]
      · exact hreach x (h.reach x i hi)

/-! ## One more link to a file -/

theorem addLink (h : NsInv m) {id p : FileId} {n : String} {i dir : Inode} {f : Nat → Nat}
    (hid : m.get? id = some i) (hfile : i.kind = .file) (hp : m.get? p = some dir)
    (hdir : dir.kind = .directory) (hn : dir.children.get? n = none)
    (hf : f i.linkCount = i.linkCount + 1) :
    NsInv ((m.putEntry p n id).relink id f) := by
  have hpid : p ≠ id := by
    intro he
    rw [he, hid] at hp
    injection hp with hp
    rw [hp, hdir] at hfile
    cases hfile
  have hroot : id ≠ rootId := by
    intro he
    obtain ⟨r, hr, hk⟩ := h.root
    rw [← he, hid] at hr
    injection hr with hr
    rw [hr, hk] at hfile
    cases hfile
  have hget : ∀ x, ((m.putEntry p n id).relink id f).get? x =
      if x = p then some { dir with children := dir.children.insert n id }
      else if x = id then some { i with linkCount := f i.linkCount } else m.get? x := by
    intro x
    unfold Inodes.relink Inodes.putEntry
    rw [OrdMap.get?_adjust, OrdMap.get?_adjust]
    by_cases hx : x = p
    · rw [if_pos hx, if_neg (fun he => hpid (hx.symm.trans he)), if_pos hx, hx, hp]
      rfl
    · rw [if_neg hx, if_neg hx]
      split
      · next he => rw [he, hid]; rfl
      · rfl
  have hentry : ∀ d k c, Inodes.HasEntry ((m.putEntry p n id).relink id f) d k c ↔
      if d = p ∧ k = n then c = id else m.HasEntry d k c := by
    intro d k c
    rw [Inodes.hasEntry_relink, Inodes.hasEntry_putEntry hp]
  have hkeep : ∀ d c, m.Edge d c → ((m.putEntry p n id).relink id f).Edge d c := by
    rintro d c ⟨k, j, hj, hk⟩
    refine ⟨k, (hentry d k c).mpr ?_⟩
    split
    · next he =>
        rw [he.1, hp] at hj
        injection hj with hj
        rw [← hj, he.2, hn] at hk
        cases hk
    · exact ⟨j, hj, hk⟩
  have hcount : ∀ x, ((m.putEntry p n id).relink id f).entryCount x =
      m.entryCount x + if x = id then 1 else 0 := by
    intro x
    rw [Inodes.entryCount_relink, Inodes.entryCount_putEntry_new hp hn]
  have hreach : ∀ x, ReflTransGen m.Edge rootId x →
      ReflTransGen ((m.putEntry p n id).relink id f).Edge rootId x :=
    fun x hx => ReflTransGen.mono hkeep _ _ hx
  constructor
  · obtain ⟨r, hr, hk⟩ := h.root
    rw [hget]
    split
    · exact ⟨_, rfl, hdir⟩
    · rw [if_neg (fun he => hroot he.symm)]
      exact ⟨r, hr, hk⟩
  · intro x j hj
    rw [hget] at hj
    split at hj
    · next he =>
        injection hj with hj
        subst hj
        rw [he]
        exact h.ids p dir hp
    · split at hj
      · next he =>
          injection hj with hj
          subst hj
          rw [he]
          exact h.ids id i hid
      · exact h.ids x j hj
  · intro x j hj hk
    rw [hget] at hj
    split at hj
    · injection hj with hj
      subst hj
      exact absurd hdir hk
    · split at hj
      · injection hj with hj
        subst hj
        exact h.leaf id i hid hk
      · exact h.leaf x j hj hk
  · intro d k c hc
    have hc := (hentry d k c).mp hc
    have hin : ∀ y, (∃ j, m.get? y = some j) →
        ∃ j, ((m.putEntry p n id).relink id f).get? y = some j := by
      rintro y ⟨j, hj⟩
      rw [hget]
      split
      · exact ⟨_, rfl⟩
      · split
        · exact ⟨_, rfl⟩
        · exact ⟨j, hj⟩
    split at hc
    · subst hc
      exact ⟨hroot, hin c ⟨i, hid⟩⟩
    · obtain ⟨hne, hex⟩ := h.resolve d k c hc
      exact ⟨hne, hin c hex⟩
  · intro x j hxroot hj
    rw [hget] at hj
    rw [hcount]
    split at hj
    · next he =>
        injection hj with hj
        subst hj
        subst he
        rw [if_neg hpid]
        exact h.count x dir hxroot hp
    · split at hj
      · next he =>
          injection hj with hj
          subst hj
          subst he
          rw [if_pos rfl, h.count x i hxroot hid]
          exact hf.symm
      · next he =>
          rw [if_neg he]
          exact h.count x j hxroot hj
  · intro x j hj hk
    rw [hget] at hj
    split at hj
    · injection hj with hj
      subst hj
      exact h.single p dir hp hk
    · split at hj
      · injection hj with hj
        subst hj
        exact absurd hfile hk
      · exact h.single x j hj hk
  · intro x j hj
    rw [hget] at hj
    refine hreach x ?_
    split at hj
    · next he => exact he ▸ h.reach p dir hp
    · split at hj
      · next he => exact he ▸ h.reach id i hid
      · exact h.reach x j hj

/-! ## One entry fewer -/

/-- Taking one entry of a leaf away keeps the paths to every other node. -/
theorem reach_cut {p id x : FileId} {n : String} (he : m.HasEntry p n id)
    (hleaf : ∀ k c, ¬ m.HasEntry id k c) (hx : ReflTransGen m.Edge rootId x) (hne : x ≠ id) :
    ReflTransGen (m.cutEntry p n).Edge rootId x := by
  induction hx with
  | refl => exact .refl
  | @tail b c _ hbc ih =>
      obtain ⟨k, hk⟩ := hbc
      have hb : b ≠ id := fun hb => hleaf k c (hb ▸ hk)
      refine (ih hb).tail ⟨k, Inodes.hasEntry_cutEntry.mpr ⟨?_, hk⟩⟩
      rintro ⟨rfl, rfl⟩
      obtain ⟨j, hj, hjc⟩ := he
      obtain ⟨j', hj', hjc'⟩ := hk
      rw [hj] at hj'
      injection hj' with hj'
      rw [← hj', hjc] at hjc'
      injection hjc' with hjc'
      exact hne hjc'.symm

/-- A leaf of which more entries remain. -/
theorem dropLink (h : NsInv m) {p id : FileId} {n : String} {i : Inode}
    (he : m.HasEntry p n id) (hid : m.get? id = some i) (hi : i.children.isEmpty = true)
    (hmore : 1 < i.linkCount) : NsInv ((m.cutEntry p n).relink id (· - 1)) := by
  have hroot : id ≠ rootId := (h.resolve p n id he).1
  have hleaf : ∀ k c, ¬ m.HasEntry id k c := by
    rintro k c ⟨j, hj, hc⟩
    rw [hid] at hj
    injection hj with hj
    rw [← hj, OrdMap.isEmpty_iff.mp hi k] at hc
    cases hc
  have hback : ∀ x j, ((m.cutEntry p n).relink id (· - 1)).get? x = some j →
      ∃ j₀, m.get? x = some j₀ ∧ j.id = j₀.id ∧ j.kind = j₀.kind ∧
        j.linkCount = (if x = id then j₀.linkCount - 1 else j₀.linkCount) ∧
        (j₀.children.isEmpty = true → j.children.isEmpty = true) := by
    intro x j hj
    unfold Inodes.relink Inodes.cutEntry at hj
    rw [OrdMap.get?_adjust, OrdMap.get?_adjust] at hj
    cases hx : m.get? x with
    | none => simp [hx] at hj
    | some j₀ =>
        have hempty : j₀.children.isEmpty = true → (j₀.children.erase n).isEmpty = true := by
          intro hemp
          refine OrdMap.isEmpty_iff.mpr fun k => ?_
          rw [OrdMap.get?_erase, OrdMap.isEmpty_iff.mp hemp k, ite_self]
        refine ⟨j₀, rfl, ?_⟩
        by_cases h1 : x = id
        · by_cases h2 : x = p
          · simp only [hx, if_pos h1, if_pos h2, Option.map_some, Option.some.injEq] at hj
            subst hj
            exact ⟨rfl, rfl, by rw [if_pos h1], hempty⟩
          · simp only [hx, if_pos h1, if_neg h2, Option.map_some, Option.some.injEq] at hj
            subst hj
            exact ⟨rfl, rfl, by rw [if_pos h1], fun hemp => hemp⟩
        · by_cases h2 : x = p
          · simp only [hx, if_neg h1, if_pos h2, Option.map_some, Option.some.injEq] at hj
            subst hj
            exact ⟨rfl, rfl, by rw [if_neg h1], hempty⟩
          · simp only [hx, if_neg h1, if_neg h2, Option.some.injEq] at hj
            subst hj
            exact ⟨rfl, rfl, by rw [if_neg h1], fun hemp => hemp⟩
  have hkeep : ∀ x j₀, m.get? x = some j₀ →
      ∃ j, ((m.cutEntry p n).relink id (· - 1)).get? x = some j ∧ j.kind = j₀.kind := by
    intro x j₀ hx
    unfold Inodes.relink Inodes.cutEntry
    rw [OrdMap.get?_adjust, OrdMap.get?_adjust, hx]
    split
    · split
      · exact ⟨_, rfl, rfl⟩
      · exact ⟨_, rfl, rfl⟩
    · split
      · exact ⟨_, rfl, rfl⟩
      · exact ⟨_, rfl, rfl⟩
  have hedge : Inodes.Edge ((m.cutEntry p n).relink id (· - 1)) = (m.cutEntry p n).Edge := by
    funext d c
    exact propext (exists_congr fun k => Inodes.hasEntry_relink)
  have hcount : ∀ x, (((m.cutEntry p n).relink id (· - 1)).entryCount x +
      if x = id then 1 else 0) = m.entryCount x := by
    intro x
    rw [Inodes.entryCount_relink, Inodes.entryCount_cutEntry he]
  constructor
  · obtain ⟨r, hr, hk⟩ := h.root
    obtain ⟨j, hj, hjk⟩ := hkeep rootId r hr
    exact ⟨j, hj, by rw [hjk, hk]⟩
  · intro x j hj
    obtain ⟨j₀, hj₀, hjid, -⟩ := hback x j hj
    rw [hjid, h.ids x j₀ hj₀]
  · intro x j hj hk
    obtain ⟨j₀, hj₀, -, hjk, -, hemp⟩ := hback x j hj
    exact hemp (h.leaf x j₀ hj₀ (hjk ▸ hk))
  · intro d k c hc
    rw [Inodes.hasEntry_relink, Inodes.hasEntry_cutEntry] at hc
    obtain ⟨hne, j₀, hj₀⟩ := h.resolve d k c hc.2
    obtain ⟨j, hj, -⟩ := hkeep c j₀ hj₀
    exact ⟨hne, j, hj⟩
  · intro x j hxroot hj
    obtain ⟨j₀, hj₀, -, -, hjl, -⟩ := hback x j hj
    have hx := hcount x
    have hold := h.count x j₀ hxroot hj₀
    rw [hjl]
    split at hx
    · next he =>
        rw [if_pos he]
        omega
    · next he =>
        rw [if_neg he]
        omega
  · intro x j hj hk
    obtain ⟨j₀, hj₀, -, hjk, hjl, -⟩ := hback x j hj
    have hone := h.single x j₀ hj₀ (hjk ▸ hk)
    rw [hjl]
    split
    · next he =>
        rw [he, hid] at hj₀
        injection hj₀ with hj₀
        rw [← hj₀] at hone
        omega
    · exact hone
  · intro x j hj
    obtain ⟨j₀, hj₀, -⟩ := hback x j hj
    rw [hedge]
    by_cases hxid : x = id
    · -- another entry is left, and its directory is not the leaf itself
      subst hxid
      have hpos : 0 < (m.cutEntry p n).entryCount x := by
        have hx := Inodes.entryCount_cutEntry (x := x) he
        rw [if_pos rfl, h.count x i hroot hid] at hx
        omega
      obtain ⟨d, k, hd⟩ := Inodes.entryCount_pos_iff.mp hpos
      have hd₀ := (Inodes.hasEntry_cutEntry.mp hd).2
      have hdx : d ≠ x := fun hdx => hleaf k x (hdx ▸ hd₀)
      obtain ⟨jd, hjd, -⟩ := hd₀
      exact (reach_cut he hleaf (h.reach d jd hjd) hdx).tail ⟨k, hd⟩
    · exact reach_cut he hleaf (h.reach x j₀ hj₀) hxid

/-- A leaf whose last entry goes, and the inode with it. -/
theorem dropNode (h : NsInv m) {p id : FileId} {n : String} {i : Inode}
    (he : m.HasEntry p n id) (hid : m.get? id = some i) (hi : i.children.isEmpty = true)
    (hlast : i.linkCount = 1) : NsInv (OrdMap.erase (m.cutEntry p n) id) := by
  have hroot : id ≠ rootId := (h.resolve p n id he).1
  have hleaf : ∀ k c, ¬ m.HasEntry id k c := by
    rintro k c ⟨j, hj, hc⟩
    rw [hid] at hj
    injection hj with hj
    rw [← hj, OrdMap.isEmpty_iff.mp hi k] at hc
    cases hc
  have hcutleaf : ∀ k c, ¬ (m.cutEntry p n).HasEntry id k c := by
    intro k c hc
    exact hleaf k c (Inodes.hasEntry_cutEntry.mp hc).2
  have hentry : ∀ d k c, Inodes.HasEntry (OrdMap.erase (m.cutEntry p n) id) d k c ↔
      ¬ (d = p ∧ k = n) ∧ m.HasEntry d k c := by
    intro d k c
    rw [Inodes.hasEntry_erase hcutleaf, Inodes.hasEntry_cutEntry]
  have hpid : id ≠ p := by
    rintro rfl
    exact hleaf n id he
  have hback : ∀ x j, (OrdMap.erase (m.cutEntry p n) id).get? x = some j → x ≠ id ∧
      ∃ j₀, m.get? x = some j₀ ∧ j.id = j₀.id ∧ j.kind = j₀.kind ∧ j.linkCount = j₀.linkCount ∧
        (j₀.children.isEmpty = true → j.children.isEmpty = true) := by
    intro x j hj
    unfold Inodes.cutEntry at hj
    rw [OrdMap.get?_erase, OrdMap.get?_adjust] at hj
    split at hj
    · cases hj
    · next hne =>
        refine ⟨hne, ?_⟩
        split at hj
        · cases hx : m.get? x with
          | none => rw [hx] at hj; cases hj
          | some j₀ =>
              rw [hx] at hj
              injection hj with hj
              subst hj
              refine ⟨j₀, rfl, rfl, rfl, rfl, fun hemp => ?_⟩
              refine OrdMap.isEmpty_iff.mpr fun k => ?_
              rw [OrdMap.get?_erase, OrdMap.isEmpty_iff.mp hemp k, ite_self]
        · exact ⟨j, hj, rfl, rfl, rfl, fun hemp => hemp⟩
  have hkeep : ∀ x j₀, x ≠ id → m.get? x = some j₀ →
      ∃ j, (OrdMap.erase (m.cutEntry p n) id).get? x = some j ∧ j.kind = j₀.kind := by
    intro x j₀ hne hx
    unfold Inodes.cutEntry
    rw [OrdMap.get?_erase, if_neg hne, OrdMap.get?_adjust, hx]
    split
    · exact ⟨_, rfl, rfl⟩
    · exact ⟨_, rfl, rfl⟩
  have hedge : Inodes.Edge (OrdMap.erase (m.cutEntry p n) id) = (m.cutEntry p n).Edge := by
    funext d c
    exact propext (exists_congr fun k => Inodes.hasEntry_erase hcutleaf)
  have hcut : (m.cutEntry p n).get? id = some i := by
    unfold Inodes.cutEntry
    rw [OrdMap.get?_adjust_of_ne hpid, hid]
  have hcount : ∀ x, (Inodes.entryCount (OrdMap.erase (m.cutEntry p n) id) x +
      if x = id then 1 else 0) = m.entryCount x := by
    intro x
    rw [Inodes.entryCount_erase hcut hi, Inodes.entryCount_cutEntry he]
  constructor
  · obtain ⟨r, hr, hk⟩ := h.root
    obtain ⟨j, hj, hjk⟩ := hkeep rootId r (fun he => hroot he.symm) hr
    exact ⟨j, hj, by rw [hjk, hk]⟩
  · intro x j hj
    obtain ⟨-, j₀, hj₀, hjid, -⟩ := hback x j hj
    rw [hjid, h.ids x j₀ hj₀]
  · intro x j hj hk
    obtain ⟨-, j₀, hj₀, -, hjk, -, hemp⟩ := hback x j hj
    exact hemp (h.leaf x j₀ hj₀ (hjk ▸ hk))
  · intro d k c hc
    obtain ⟨hdk, hold⟩ := (hentry d k c).mp hc
    obtain ⟨hne, j₀, hj₀⟩ := h.resolve d k c hold
    have hcid : c ≠ id := by
      -- the entry that is gone was the only one
      rintro rfl
      have hx := Inodes.entryCount_cutEntry (x := c) he
      have hpos : 0 < (m.cutEntry p n).entryCount c :=
        Inodes.entryCount_pos_iff.mpr ⟨d, k, Inodes.hasEntry_cutEntry.mpr ⟨hdk, hold⟩⟩
      rw [if_pos rfl, h.count c i hroot hid, hlast] at hx
      omega
    obtain ⟨j, hj, -⟩ := hkeep c j₀ hcid hj₀
    exact ⟨hne, j, hj⟩
  · intro x j hxroot hj
    obtain ⟨hxid, j₀, hj₀, -, -, hjl, -⟩ := hback x j hj
    have hx := hcount x
    rw [if_neg hxid, h.count x j₀ hxroot hj₀] at hx
    rw [hjl]
    exact hx
  · intro x j hj hk
    obtain ⟨-, j₀, hj₀, -, hjk, hjl, -⟩ := hback x j hj
    rw [hjl]
    exact h.single x j₀ hj₀ (hjk ▸ hk)
  · intro x j hj
    obtain ⟨hxid, j₀, hj₀, -⟩ := hback x j hj
    rw [hedge]
    exact reach_cut he hleaf (h.reach x j₀ hj₀) hxid

/-! ## Moving a subtree -/

/-- Entry `(p, n)` of `id` becomes entry `(q, k)`, which was not taken, and `q`
is outside the subtree of `id`. -/
theorem move (h : NsInv m) {p q id : FileId} {n k : String} {dir : Inode}
    (he : m.HasEntry p n id) (hq : m.get? q = some dir) (hdir : dir.kind = .directory)
    (hk : dir.children.get? k = none) (hout : ¬ ReflTransGen m.Edge id q) :
    NsInv ((m.cutEntry p n).putEntry q k id) := by
  have hnone : ∀ c, ¬ m.HasEntry q k c := by
    rintro c ⟨j, hj, hc⟩
    rw [hq] at hj
    injection hj with hj
    rw [← hj, hk] at hc
    cases hc
  have hq' : ∃ dir', (m.cutEntry p n).get? q = some dir' ∧ dir'.children.get? k = none := by
    unfold Inodes.cutEntry
    rw [OrdMap.get?_adjust, hq]
    split
    · refine ⟨_, rfl, ?_⟩
      show (dir.children.erase n).get? k = none
      rw [OrdMap.get?_erase, hk, ite_self]
    · exact ⟨dir, rfl, hk⟩
  obtain ⟨dir', hdir', hk'⟩ := hq'
  have hentry : ∀ d l c, Inodes.HasEntry ((m.cutEntry p n).putEntry q k id) d l c ↔
      if d = q ∧ l = k then c = id else ¬ (d = p ∧ l = n) ∧ m.HasEntry d l c := by
    intro d l c
    rw [Inodes.hasEntry_putEntry hdir', Inodes.hasEntry_cutEntry]
  have hback : ∀ x j, ((m.cutEntry p n).putEntry q k id).get? x = some j →
      ∃ j₀, m.get? x = some j₀ ∧ j.id = j₀.id ∧ j.kind = j₀.kind ∧ j.linkCount = j₀.linkCount ∧
        (j₀.kind ≠ .directory → j.children.isEmpty = true) := by
    intro x j hj
    unfold Inodes.putEntry Inodes.cutEntry at hj
    rw [OrdMap.get?_adjust, OrdMap.get?_adjust] at hj
    cases hx : m.get? x with
    | none => simp [hx] at hj
    | some j₀ =>
        have hxdir : x = q → j₀.kind = .directory := by
          intro hxq
          rw [hxq, hq] at hx
          injection hx with hx
          rw [← hx, hdir]
        have hempty : j₀.kind ≠ .directory → (j₀.children.erase n).isEmpty = true := by
          intro hkind
          refine OrdMap.isEmpty_iff.mpr fun l => ?_
          rw [OrdMap.get?_erase, OrdMap.isEmpty_iff.mp (h.leaf x j₀ hx hkind) l, ite_self]
        refine ⟨j₀, rfl, ?_⟩
        by_cases h1 : x = q
        · by_cases h2 : x = p
          · simp only [hx, if_pos h1, if_pos h2, Option.map_some, Option.some.injEq] at hj
            subst hj
            exact ⟨rfl, rfl, rfl, fun hkind => absurd (hxdir h1) hkind⟩
          · simp only [hx, if_pos h1, if_neg h2, Option.map_some, Option.some.injEq] at hj
            subst hj
            exact ⟨rfl, rfl, rfl, fun hkind => absurd (hxdir h1) hkind⟩
        · by_cases h2 : x = p
          · simp only [hx, if_neg h1, if_pos h2, Option.map_some, Option.some.injEq] at hj
            subst hj
            exact ⟨rfl, rfl, rfl, hempty⟩
          · simp only [hx, if_neg h1, if_neg h2, Option.some.injEq] at hj
            subst hj
            exact ⟨rfl, rfl, rfl, h.leaf x j₀ hx⟩
  have hkeep : ∀ x j₀, m.get? x = some j₀ →
      ∃ j, ((m.cutEntry p n).putEntry q k id).get? x = some j ∧ j.kind = j₀.kind := by
    intro x j₀ hx
    unfold Inodes.putEntry Inodes.cutEntry
    rw [OrdMap.get?_adjust, OrdMap.get?_adjust, hx]
    split
    · split
      · exact ⟨_, rfl, rfl⟩
      · exact ⟨_, rfl, rfl⟩
    · split
      · exact ⟨_, rfl, rfl⟩
      · exact ⟨_, rfl, rfl⟩
  have hcount : ∀ x, ((m.cutEntry p n).putEntry q k id).entryCount x = m.entryCount x := by
    intro x
    rw [Inodes.entryCount_putEntry_new hdir' hk']
    exact Inodes.entryCount_cutEntry he
  have huniq : ∀ c, m.HasEntry p n c → c = id := by
    rintro c ⟨j', hj', hc'⟩
    obtain ⟨j, hj, hc⟩ := he
    rw [hj] at hj'
    injection hj' with hj'
    rw [← hj', hc] at hc'
    injection hc' with hc'
    exact hc'.symm
  -- outside the subtree the paths from the root do not use the old entry
  have houtside : ∀ x, ReflTransGen m.Edge rootId x → ¬ ReflTransGen m.Edge id x →
      ReflTransGen ((m.cutEntry p n).putEntry q k id).Edge rootId x := by
    intro x hx
    induction hx with
    | refl => exact fun _ => .refl
    | @tail b c _ hbc ih =>
        intro hc
        have hb : ¬ ReflTransGen m.Edge id b := fun hb => hc (hb.tail hbc)
        obtain ⟨l, hl⟩ := hbc
        refine (ih hb).tail ⟨l, (hentry b l c).mpr ?_⟩
        split
        · next hbl => exact absurd (hbl.1 ▸ hbl.2 ▸ hl) (hnone c)
        · refine ⟨?_, hl⟩
          rintro ⟨rfl, rfl⟩
          exact hc (huniq c hl ▸ .refl)
  -- inside it they do not use the old or the new entry
  have hp : ¬ ReflTransGen m.Edge id p := fun hp => h.acyclic id (TransGen.tail' hp ⟨n, he⟩)
  have hinside : ∀ x, ReflTransGen m.Edge id x →
      ReflTransGen ((m.cutEntry p n).putEntry q k id).Edge id x := by
    intro x hx
    induction hx with
    | refl => exact .refl
    | @tail b c hb hbc ih =>
        obtain ⟨l, hl⟩ := hbc
        refine ih.tail ⟨l, (hentry b l c).mpr ?_⟩
        split
        · next hbq => exact absurd (hbq.1 ▸ hb) hout
        · exact ⟨fun hbp => hp (hbp.1 ▸ hb), hl⟩
  constructor
  · obtain ⟨r, hr, hkind⟩ := h.root
    obtain ⟨j, hj, hjk⟩ := hkeep rootId r hr
    exact ⟨j, hj, by rw [hjk, hkind]⟩
  · intro x j hj
    obtain ⟨j₀, hj₀, hjid, -⟩ := hback x j hj
    rw [hjid, h.ids x j₀ hj₀]
  · intro x j hj hkind
    obtain ⟨j₀, hj₀, -, hjk, -, hemp⟩ := hback x j hj
    exact hemp (hjk ▸ hkind)
  · intro d l c hc
    have hc := (hentry d l c).mp hc
    have hold : ∃ d' l', m.HasEntry d' l' c := by
      split at hc
      · subst hc
        exact ⟨p, n, he⟩
      · exact ⟨d, l, hc.2⟩
    obtain ⟨d', l', hold⟩ := hold
    obtain ⟨hne, j₀, hj₀⟩ := h.resolve d' l' c hold
    obtain ⟨j, hj, -⟩ := hkeep c j₀ hj₀
    exact ⟨hne, j, hj⟩
  · intro x j hxroot hj
    obtain ⟨j₀, hj₀, -, -, hjl, -⟩ := hback x j hj
    rw [hcount, hjl, h.count x j₀ hxroot hj₀]
  · intro x j hj hkind
    obtain ⟨j₀, hj₀, -, hjk, hjl, -⟩ := hback x j hj
    rw [hjl]
    exact h.single x j₀ hj₀ (hjk ▸ hkind)
  · intro x j hj
    obtain ⟨j₀, hj₀, -⟩ := hback x j hj
    by_cases hx : ReflTransGen m.Edge id x
    · have hnew : ((m.cutEntry p n).putEntry q k id).Edge q id :=
        ⟨k, (hentry q k id).mpr (by rw [if_pos ⟨rfl, rfl⟩])⟩
      exact ((houtside q (h.reach q dir hq) hout).tail hnew).trans (hinside x hx)
    · exact houtside x (h.reach x j₀ hj₀) hx

end NsInv

end Luksbox
