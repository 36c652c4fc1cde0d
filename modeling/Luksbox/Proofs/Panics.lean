import Luksbox.Proofs.Contents
import Luksbox.Proofs.Failures
import Luksbox.Proofs.Parents

/-!
# No call panics

`exec_spec` says of each call what keeps it from panicking (`Vfs.Safe`). Over a
run it is an invariant. The bytes of a file have a place in its chunks, whether
the length stands in the inode or in the header of the first chunk, where
`real_size` checks it again; the chunks of a file and the slots of a vault can be
counted in a `u64`; and a symlink has its target. None of this depends on what
the calls return or on which of their writes fail.
-/

namespace Luksbox

open Lib Relation

/-- A length whose bytes, and the header before them, fit into so many chunks. -/
def Fits (len chunks : Nat) (hide : Bool) : Prop :=
  0 < len → len + headerLen hide ≤ chunks * chunkPlaintextSize

/-- The lengths an inode records fit into its chunks, and these are not more than
a `u64` has bytes for. -/
structure Inode.InRange (i : Inode) (hide : Bool) : Prop where
  chunks : i.chunks.length ≤ 2 ^ 51
  plain : i.kind = .file → hide = false → Fits i.size i.chunks.length hide
  cached : i.kind = .file → hide = true → ∀ n, i.cachedRealSize = some n →
    Fits n i.chunks.length hide

structure Vfs.InRange (s : Vfs) : Prop where
  inodes : ∀ f i, s.tree.inodes.get? f = some i → i.InRange s.hideSize
  next : s.tree.nextChunkId ≤ u64Max
  targets : s.HasTargets

/-! ## What it is enough for -/

/-- What fits into `count` chunks needs at most `count`. -/
theorem requiredChunks_le_of_fits {n count : Nat} {hide : Bool} (h : Fits n count hide) :
    requiredChunks n hide ≤ count := by
  unfold requiredChunks
  split
  · exact Nat.zero_le _
  · next hn =>
      have hfit := h (Nat.pos_of_ne_zero hn)
      unfold headerLen at hfit
      unfold chunkPlaintextSize at hfit ⊢
      cases hide with
      | false =>
          simp only [Bool.false_eq_true, if_false] at hfit ⊢
          omega
      | true =>
          simp only [if_true] at hfit ⊢
          omega

/-- And what needs at most `count` fits into them. -/
theorem fits_of_padded {n count chunks : Nat} {hide padding : Bool}
    (hn : n + headerLen hide ≤ u64Max)
    (h : paddedChunkCount (requiredChunks n hide) padding = .ok count) (hle : count ≤ chunks) :
    Fits n chunks hide := by
  intro hpos
  have hlast := (Vfs.last_lt_of_padded hn h hpos).trans_le hle
  unfold chunkPlaintextSize at hlast ⊢
  omega

theorem fits_in_range {n chunks : Nat} {hide : Bool} (h : Fits n chunks hide)
    (hc : chunks ≤ 2 ^ 51) : n + headerLen hide ≤ u64Max := by
  have hlen := @headerLen_le hide
  have hmax : u64Max = 2 ^ 64 - 1 := rfl
  unfold sizeHeaderLen at hlen
  rcases Nat.eq_zero_or_pos n with rfl | hpos
  · omega
  · have hfit := h hpos
    unfold chunkPlaintextSize at hfit
    omega

/-- Different numbers below `n` are at most `n`. -/
theorem length_le_of_nodup {l : List Nat} {n : Nat} (hl : l.Nodup) (h : ∀ x ∈ l, x < n) :
    l.length ≤ n := by
  have hsub : l.toFinset ⊆ Finset.range n := fun x hx =>
    Finset.mem_range.mpr (h x (List.mem_toFinset.mp hx))
  rw [← List.toFinset_card_of_nodup hl, ← Finset.card_range n]
  exact Finset.card_le_card hsub

namespace Vfs.InRange

variable {s s' : Vfs} {f : FileId}

/-- A header that `real_size` accepts fits. -/
theorem headerSize_fits {i : Inode} {n : Nat} (h : s.headerSize f i = some n)
    (hhide : s.hideSize = true) : Fits n i.chunks.length s.hideSize := by
  intro hpos
  rw [hhide]
  unfold headerSize at h
  split at h
  · injection h with h
    omega
  · next chunk0 rest hchunks =>
      obtain ⟨pt, -, h⟩ := Option.bind_eq_some_iff.mp h
      split at h
      · cases h
      · next hno =>
          injection h with h
          rw [hchunks] at hno ⊢
          show n + sizeHeaderLen ≤ _
          omega

/-- The length of a file, wherever it comes from. -/
theorem sizeOf_fits (h : s.InRange) {i : Inode} {n : Nat} (hi : s.tree.inodes.get? f = some i)
    (hn : s.sizeOf f = some n) : Fits n i.chunks.length s.hideSize := by
  have hrange := h.inodes f i hi
  unfold sizeOf at hn
  rw [hi, Option.bind_some] at hn
  unfold inodeSize at hn
  split at hn
  · intro hpos
    injection hn with hn
    omega
  · next hk =>
      have hk := not_not.mp hk
      cases hhide : s.hideSize with
      | false =>
          rw [if_pos hhide] at hn
          injection hn with hn
          rw [← hhide, ← hn]
          exact hrange.plain hk hhide
      | true =>
          rw [if_neg (by rw [hhide]; exact nofun)] at hn
          rw [← hhide]
          cases hcached : i.cachedRealSize with
          | none =>
              rw [hcached] at hn
              exact headerSize_fits hn hhide
          | some m =>
              rw [hcached] at hn
              injection hn with hn
              exact hrange.cached hk hhide n (hn ▸ hcached)

theorem bounded (h : s.InRange) : Bounded s f := fun i hi =>
  ⟨(h.inodes f i hi).chunks, fun _ hn =>
    (requiredChunks_le_of_fits (h.sizeOf_fits hi hn)).trans (h.inodes f i hi).chunks⟩

/-- The slots of the vault have different ids, all below `next_chunk_id`. -/
theorem countable (h : s.InRange) (ho : Owned s) : Countable s := by
  have hcount : ∀ x, s.tree.inodes.refIds.count x + s.tree.freeChunks.count x +
      s.pendingFree.count x ≤ (Cfg.mk [] [] s).held x := by
    intro x
    have htally : s.tree.inodes.tally Inode.refIds x = s.tree.inodes.refIds.count x := rfl
    unfold Cfg.held
    simp only
    omega
  have hbelow : ∀ x, 0 < s.tree.inodes.refIds.count x + s.tree.freeChunks.count x +
      s.pendingFree.count x → x < s.tree.nextChunkId := fun x hx =>
    ho.ledger.bound x (hx.trans_le (hcount x))
  have honce : ∀ x, s.tree.inodes.refIds.count x + s.tree.freeChunks.count x +
      s.pendingFree.count x ≤ 1 := fun x => (hcount x).trans (ho.ledger.once x)
  refine ⟨?_, ?_, fun x hx => ?_⟩
  · refine le_trans (length_le_of_nodup (List.nodup_iff_count_le_one.mpr fun x => ?_) fun x hx =>
      hbelow x ?_) h.next
    · have := honce x
      omega
    · have := List.count_pos_iff.mpr hx
      omega
  · rw [← List.length_append]
    refine le_trans (length_le_of_nodup (List.nodup_iff_count_le_one.mpr fun x => ?_) fun x hx =>
      hbelow x ?_) h.next
    · have := honce x
      rw [List.count_append]
      omega
    · have hpos := List.count_pos_iff.mpr hx
      rw [List.count_append] at hpos
      omega
  · have hpos := List.count_pos_iff.mpr hx
    exact (hbelow x (by omega)).trans_le h.next

theorem safe (h : s.InRange) (ho : Owned s) {op : Op} : Safe s op := by
  cases op with
  | write f offset buf => exact h.bounded
  | read f offset bufLen => exact fun i n hi _ hn => h.sizeOf_fits hi hn
  | readlink id => exact h.targets
  | spaceReport => exact h.countable ho
  | _ => trivial

end Vfs.InRange

/-! ## Along a path -/

theorem Inode.InRange.congr {i i' : Inode} {hide : Bool} (h : i.InRange hide)
    (hkind : i'.kind = i.kind) (hsize : i'.size = i.size) (hchunks : i'.chunks = i.chunks)
    (hcached : i'.cachedRealSize = i.cachedRealSize) : i'.InRange hide := by
  obtain ⟨hlen, hplain, hhidden⟩ := h
  refine ⟨?_, ?_, ?_⟩
  · rw [hchunks]
    exact hlen
  · rw [hkind, hsize, hchunks]
    exact hplain
  · rw [hkind, hcached, hchunks]
    exact hhidden

/-- An id is taken only where the next one is still a `u64`. -/
theorem Micro.next_le {P : Permit} {f : FileId} {c c' : Cfg} (h : Micro P f c c')
    (hle : c.vfs.tree.nextChunkId ≤ u64Max) : c'.vfs.tree.nextChunkId ≤ u64Max := by
  cases h with
  | take ht =>
      show (DirectoryTree.nextChunkId _) ≤ u64Max
      rcases allocChunkId_cases ht with ⟨-, ht⟩ | ⟨-, -, hmax, ht⟩
      · rw [ht]
        exact hle
      · rw [ht]
        exact hmax
  | upgradeHeader =>
      unfold Vfs.upgradeHeader
      split
      · exact hle
      · exact hle
  | upgradeToV4 =>
      unfold Vfs.upgradeToV4
      split
      · exact hle
      · exact hle
  | publish hb hl =>
      rw [hl.published.tree]
      exact hle
  | _ => exact hle

theorem Micro.inRange {P : Permit} {f : FileId} {c c' : Cfg} (h : Micro P f c c')
    (hr : c.vfs.InRange) : c'.vfs.InRange := by
  refine ⟨fun g i' hi' => ?_, h.next_le hr.next, fun g i' hi' hk => ?_⟩
  · rw [h.frame.hideSize]
    rcases h.sized with hsized | ⟨n, hn, hv⟩
    · obtain ⟨i, hi, hs⟩ := OrdMap.exists_of_mapVals_eq hsized hi'
      exact (hr.inodes g i hi).congr (congrArg Inode.kind hs :) (congrArg Inode.size hs :)
        (congrArg Inode.chunks hs :) (congrArg Inode.cachedRealSize hs :)
    · -- the length was looked up, and what was found fits
      rw [hv] at hi'
      have hadjust : (c.vfs.tree.inodes.adjust f _).get? g = some i' := hi'
      rw [OrdMap.get?_adjust] at hadjust
      split at hadjust
      · next hgf =>
          subst hgf
          obtain ⟨i, hi, rfl⟩ := Option.map_eq_some_iff.mp hadjust
          have hrange := hr.inodes g i hi
          have hfits : Fits n i.chunks.length c.vfs.hideSize := hr.sizeOf_fits hi hn
          refine ⟨hrange.chunks, hrange.plain, fun _ _ m hm => ?_⟩
          injection hm with hm
          exact hm ▸ hfits
      · exact hr.inodes g i' hadjust
  · obtain ⟨i, hi, hbare⟩ := h.frame.inode_back hi'
    have htarget : i'.symlinkTarget = i.symlinkTarget :=
      (congrArg Inode.symlinkTarget hbare :)
    rw [htarget]
    exact hr.targets g i hi (Inode.bare_kind hbare ▸ hk)

theorem Path.inRange {P : Permit} {f : FileId} {c c' : Cfg} (h : Path P f c c')
    (hr : c.vfs.InRange) : c'.vfs.InRange :=
  path_inv (I := fun c => c.vfs.InRange) (fun _ _ ha hs => hs.inRange ha) h hr

/-! ## Edits of the namespace -/

namespace Inodes

variable {m : Inodes} {d id : FileId} {n : String}

def HasTargets (m : Inodes) : Prop :=
  ∀ id i, m.get? id = some i → i.kind = .symlink → i.symlinkTarget ≠ none

theorem HasTargets.adjust (h : m.HasTargets) {f : Inode → Inode}
    (hk : ∀ i, (f i).kind = i.kind) (ht : ∀ i, (f i).symlinkTarget = i.symlinkTarget) :
    HasTargets (m.adjust id f) := by
  intro g i hi hkind
  rw [OrdMap.get?_adjust] at hi
  split at hi
  · obtain ⟨j, hj, rfl⟩ := Option.map_eq_some_iff.mp hi
    rw [ht]
    exact h g j hj (hk j ▸ hkind)
  · exact h g i hi hkind

theorem HasTargets.erase (h : m.HasTargets) : HasTargets (m.erase id) :=
  fun g i hi => h g i (OrdMap.exists_of_get?_erase hi).2

theorem HasTargets.insert (h : m.HasTargets) {i : Inode}
    (hi : i.kind = .symlink → i.symlinkTarget ≠ none) : HasTargets (m.insert id i) := by
  intro g j hj
  rw [OrdMap.get?_insert] at hj
  split at hj
  · injection hj with hj
    exact hj ▸ hi
  · exact h g j hj

theorem HasTargets.putEntry (h : m.HasTargets) : (m.putEntry d n id).HasTargets :=
  h.adjust (fun _ => rfl) fun _ => rfl

theorem HasTargets.cutEntry (h : m.HasTargets) : (m.cutEntry d n).HasTargets :=
  h.adjust (fun _ => rfl) fun _ => rfl

theorem HasTargets.relink (h : m.HasTargets) {f : Nat → Nat} : (m.relink id f).HasTargets :=
  h.adjust (fun _ => rfl) fun _ => rfl

theorem HasTargets.reparent (h : m.HasTargets) : (m.reparent id d).HasTargets :=
  h.adjust (fun _ => rfl) fun _ => rfl

theorem HasTargets.moved (h : m.HasTargets) {q : FileId} {k : String} :
    (Vfs.moved m d n q k id).HasTargets := by
  unfold Vfs.moved
  split
  · exact h.cutEntry.putEntry
  · exact h.cutEntry.putEntry.reparent

theorem HasTargets.adopted {t : DirectoryTree} (h : t.inodes.HasTargets) :
    (Vfs.adopted t d id).HasTargets := by
  unfold Vfs.adopted
  split
  · split
    · exact h.reparent
    · exact h
  · exact h

end Inodes

namespace Vfs

variable {s s' : Vfs}

theorem Entered.targets {parent id : FileId} {name : String} {node : FileId → Nat → Inode}
    (hs : Entered s parent name node id s') (h : s.HasTargets)
    (hnode : ∀ n now, (node n now).kind = .symlink → (node n now).symlinkTarget ≠ none) :
    s'.HasTargets := by
  obtain ⟨-, hs', -⟩ := hs
  have hm : s.tree.inodes.HasTargets := h
  rw [hs']
  exact (hm.insert (hnode _ _)).putEntry

theorem Edited.targets {op : Op} (he : Edited s op s') (h : s.HasTargets) : s'.HasTargets := by
  have hm : s.tree.inodes.HasTargets := h
  cases op with
  | mkdir parent name =>
      obtain ⟨id, hs⟩ := he
      exact hs.targets h fun _ _ => nofun
  | create parent name mode =>
      obtain ⟨id, hs⟩ := he
      exact hs.targets h fun _ _ => nofun
  | symlink parent name target =>
      obtain ⟨id, hs⟩ := he
      exact hs.targets h fun _ _ _ => nofun
  | link targetId newParent newName =>
      obtain ⟨-, -, -, -, -, -, -, -, rfl⟩ := he
      exact hm.putEntry.relink
  | unlink parent name =>
      obtain ⟨-, -, -, -, -, -, -, -, ⟨-, rfl⟩ | ⟨-, rfl⟩⟩ := he
      · exact hm.cutEntry.erase
      · exact Inodes.HasTargets.adopted (t := { s.tree with inodes := _ }) hm.cutEntry.relink
  | rmdir parent name =>
      obtain ⟨-, -, -, -, -, -, -, -, -, rfl⟩ := he
      exact hm.cutEntry.erase
  | rename p n q k =>
      rcases he with ⟨rfl, -⟩ | ⟨-, -, -, -, -, -, ⟨-, rfl⟩ | ⟨-, -, -, -, -, -,
        ⟨-, rfl⟩ | ⟨-, rfl⟩⟩⟩
      · exact h
      · exact hm.moved
      · exact hm.erase.moved
      · exact hm.relink.moved
  | chmod id mode =>
      obtain ⟨-, -, rfl⟩ := he
      exact hm.adjust (fun _ => rfl) fun _ => rfl
  | setMtime id mtimeNs =>
      obtain ⟨-, -, rfl⟩ := he
      exact hm.adjust (fun _ => rfl) fun _ => rfl
  | _ =>
      have he : s' = s := he
      rw [he]
      exact h

namespace InRange

/-- An edit leaves the data of an inode alone, or enters one without any. -/
theorem edited (h : s.InRange) (hd : DataEdit s s') (ht : s'.HasTargets) : s'.InRange := by
  have hhide : s'.hideSize = s.hideSize := by
    unfold hideSize
    rw [hd.rest]
  refine ⟨fun g i' hi' => ?_, ?_, ht⟩
  · rw [hhide]
    rcases hd.data_cases hi' with hdata | ⟨-, -, hnew⟩
    · rw [hi'] at hdata
      obtain ⟨i, hi, hdata⟩ := Option.map_eq_some_iff.mp hdata.symm
      exact (h.inodes g i hi).congr (congrArg FileData.kind hdata.symm)
        (congrArg FileData.size hdata.symm) (congrArg FileData.chunks hdata.symm)
        (congrArg FileData.cachedRealSize hdata.symm)
    · have hchunks : i'.chunks = [] := hnew.chunks
      have hcached : i'.cachedRealSize = none := hnew.cachedRealSize
      refine ⟨?_, fun hk _ hpos => ?_, fun _ _ n hn => ?_⟩
      · rw [hchunks]
        exact Nat.zero_le _
      · have hsize : i'.size = 0 := hnew.size hk
        omega
      · rw [hcached] at hn
        cases hn
  · rw [hd.rest]
    exact h.next

/-- The inode that a `write` or `truncate` left. -/
theorem replaced (h : s.InRange) {f : FileId} {refs : List ChunkRef} {newReal : Nat}
    {freed : List ChunkId} (hlen : refs.length ≤ 2 ^ 51)
    (hfits : Fits newReal refs.length s.hideSize) : (s.replaced f refs newReal freed).InRange := by
  have hget : ∀ g i', (s.replaced f refs newReal freed).tree.inodes.get? g = some i' →
      (g = f ∧ ∃ i, s.tree.inodes.get? f = some i ∧ i' = { i with
        chunks := refs
        size := if s.hideSize then refs.length * chunkPlaintextSize else newReal
        cachedRealSize := if s.hideSize then some newReal else i.cachedRealSize
        mtimeNs := s.container.env.nowNs }) ∨ s.tree.inodes.get? g = some i' := by
    intro g i' hi'
    by_cases hgf : g = f
    · subst hgf
      have hadjust : (s.tree.inodes.adjust g _).get? g = some i' := hi'
      rw [OrdMap.get?_adjust_self] at hadjust
      obtain ⟨i, hi, rfl⟩ := Option.map_eq_some_iff.mp hadjust
      exact .inl ⟨rfl, i, hi, rfl⟩
    · rw [get?_replaced_of_ne hgf] at hi'
      exact .inr hi'
  refine ⟨fun g i' hi' => ?_, h.next, fun g i' hi' hk => ?_⟩
  · rcases hget g i' hi' with ⟨rfl, i, hi, rfl⟩ | hi
    · have hhide : (s.replaced g refs newReal freed).hideSize = s.hideSize := rfl
      rw [hhide]
      refine ⟨hlen, fun _ hplain => ?_, fun _ hhidden n hn => ?_⟩
      · have hsize : (if s.hideSize = true then refs.length * chunkPlaintextSize else newReal) =
            newReal := if_neg (by rw [hplain]; exact nofun)
        show Fits (if _ then _ else _) _ _
        rw [hsize]
        exact hfits
      · have hn : (if s.hideSize = true then some newReal else i.cachedRealSize) = some n := hn
        rw [if_pos hhidden] at hn
        injection hn with hn
        exact hn ▸ hfits
    · exact h.inodes g i' hi
  · rcases hget g i' hi' with ⟨rfl, i, hi, rfl⟩ | hi
    · exact h.targets g i hi hk
    · exact h.targets g i' hi hk

theorem along {P : Permit} (h : s.InRange) (ha : Along P s s') : s'.InRange := by
  obtain ⟨f, c, hp, rfl⟩ := ha
  exact Path.inRange hp h

theorem written {p : Plan} {f : FileId} {offset : Nat} {buf : List UInt8} {c₀ : Cfg}
    {oldReal : Nat} {i : Inode} {count : Nat} {c : Cfg} {refs : List ChunkRef}
    {retired : List ChunkId} (h : s.InRange)
    (hw : Written p f s offset buf c₀ oldReal i count c refs retired s') : s'.InRange := by
  obtain ⟨pts, hview, -⟩ := hw.sees
  have h₀ : c₀.vfs.InRange := Path.inRange hw.begun.path h
  have hhide₀ : c₀.vfs.hideSize = s.hideSize := (Path.frame hw.begun.path).hideSize
  have hhide : c.vfs.hideSize = s.hideSize := (Path.frame hview.path).hideSize.trans hhide₀
  obtain ⟨hcur, count', hok, hle⟩ := hw.begun.count_le hw.inode h.bounded hw.small
  rw [hw.count_eq] at hok
  injection hok with hcount
  subst hcount
  have hold := h₀.sizeOf_fits hw.inode hw.begun.sizeNow
  rw [hhide₀] at hold
  rw [hw.final]
  refine InRange.replaced (Path.inRange hview.path h₀) ?_ ?_
  · rw [hw.length]
    exact max_le hcur hle
  · rw [hhide]
    exact fits_of_padded (grown_in_range (fits_in_range hold hcur) hw.small) hw.count_eq
      (hw.length ▸ le_max_right _ _)

theorem truncated {p : Plan} {f : FileId} {newSize : Nat} {c₀ : Cfg} {oldReal : Nat} {i : Inode}
    {count : Nat} {c : Cfg} {refs : List ChunkRef} {retired : List ChunkId} (h : s.InRange)
    (hw : Truncated p f s newSize c₀ oldReal i count c refs retired s') : s'.InRange := by
  obtain ⟨pts, hview, -⟩ := hw.sees
  have h₀ : c₀.vfs.InRange := Path.inRange hw.begun.path h
  have hhide : c.vfs.hideSize = s.hideSize :=
    (Path.frame hview.path).hideSize.trans (Path.frame hw.begun.path).hideSize
  have hsmall : requiredChunks newSize s.hideSize ≤ 2 ^ 51 :=
    (requiredChunks_maxFileSize hw.small).trans (by decide)
  obtain ⟨count', hok, -, hle⟩ := @paddedChunkCount_le _ 51 s.paddingOn hsmall (by decide)
  rw [hw.count_eq] at hok
  injection hok with hcount
  subst hcount
  rw [hw.final]
  refine InRange.replaced (Path.inRange hview.path h₀) ?_ ?_
  · rw [hw.length]
    exact hle
  · rw [hhide, hw.length]
    exact fits_of_padded (small_in_range hw.small) hw.count_eq (le_refl _)

/-! ## Calls -/

theorem withEnv (h : s.InRange) {env : Env} : (s.withEnv env).InRange :=
  ⟨h.inodes, h.next, h.targets⟩

theorem done (h : s.InRange) (ht : TreeInv s.tree) {p : Plan} {op : Op} {r : Reply}
    (hop : op.isLocal = true) (hd : Done p s op r s') : s'.InRange := by
  have hedit : Edited s op s' → s'.InRange := fun he =>
    h.edited (Edited.dataEdit ht he) (he.targets h.targets)
  have hsame : s' = s → s'.InRange := fun he => he ▸ h
  cases op with
  | lookup parent name => exact hsame hd
  | readdir id => exact hsame hd
  | parentOf id => exact hsame hd
  | readlink id => exact hsame hd
  | stat f =>
      obtain ⟨c, -, hp, rfl, -⟩ := hd
      exact Path.inRange hp h
  | read f offset bufLen =>
      obtain ⟨c, -, hp, rfl, -⟩ := hd
      exact Path.inRange hp h
  | write f offset buf =>
      rcases hd with ⟨-, he⟩ | ⟨c₀, oldReal, i, count, c, refs, retired, hw⟩
      · exact hsame he
      · exact h.written hw
  | truncate f newSize =>
      obtain ⟨c₀, oldReal, i, count, c, refs, retired, hw⟩ := hd
      exact h.truncated hw
  | flush =>
      obtain ⟨c, hp, rfl, -⟩ := hd
      exact Path.inRange hp h
  | setMaxVaultSize bytes =>
      rcases hd with he | ⟨-, rfl⟩
      · exact hsame he
      · exact ⟨h.inodes, h.next, h.targets⟩
  | setShrinkMode mode =>
      have hd : s' = { s with shrinkMode := mode } := hd
      rw [hd]
      exact ⟨h.inodes, h.next, h.targets⟩
  | spaceReport =>
      obtain ⟨env, rfl⟩ := hd
      exact h.withEnv
  | mkdir parent name => exact hedit hd
  | create parent name mode => exact hedit hd
  | symlink parent name target => exact hedit hd
  | link targetId newParent newName => exact hedit hd
  | unlink parent name => exact hedit hd
  | rmdir parent name => exact hedit hd
  | rename oldParent oldName newParent newName => exact hedit hd
  | chmod id mode => exact hedit hd
  | setMtime id mtimeNs => exact hedit hd
  | shrink => cases hop
  | shrinkAllowDeniable => cases hop
  | finish => cases hop
  | reopen => cases hop

/-- A local call keeps the state in range, and does not panic there. -/
theorem exec_local (h : s.InRange) (ho : Owned s) {op : Op} (hop : op.isLocal = true) :
    wp (exec op) (fun _ s' => s'.InRange) (fun e s' => e ≠ .panic ∧ s'.InRange) s := by
  refine wp_mono (exec_spec ho.tree ho.ledger hop granted_any) ?_ ?_
  · intro r s' hd
    exact h.done ho.tree hop hd
  · intro e s' he
    exact ⟨he.1 (h.safe ho), h.along he.2⟩

/-! A shrink is two flushes and a cut, and between them only the counter of the
next id goes down. -/

theorem flush_inRange (h : s.InRange) (ho : Owned s) :
    wp flush (fun _ s' => s'.InRange) (fun e s' => e ≠ .panic ∧ s'.InRange) s := by
  have hspec := @exec_local s h ho .flush rfl
  unfold exec at hspec
  rw [wp_map] at hspec
  exact hspec

theorem container (h : s.InRange) {c : Container} (hc : c.header = s.container.header) :
    InRange { s with container := c } := by
  have hhide : hideSize { s with container := c } = s.hideSize :=
    (congrArg _ hc : c.header.hideSizeHeader = s.container.header.hideSizeHeader)
  exact ⟨fun f i hi => hhide ▸ h.inodes f i hi, h.next, h.targets⟩

theorem lowered (h : s.InRange) {keep : ChunkId} (hle : keep ≤ s.tree.nextChunkId) :
    (lowerNextChunkId keep s).InRange := ⟨h.inodes, hle.trans h.next, h.targets⟩

theorem truncateDataFile_header {len : Nat} {c : Container} :
    wp (Container.truncateDataFile len) (fun _ c' => c'.header = c.header)
      (fun e c' => e ≠ .panic ∧ c'.header = c.header) c := by
  unfold Container.truncateDataFile
  rw [wp_bind, wp_get]
  split
  · exact ⟨nofun, rfl⟩
  rw [wp_bind]
  refine Container.nextFault_spec fun fault io => ?_
  cases fault with
  | ok =>
      refine wp_bind.mpr ?_
      exact Container.syncAll_spec (fun _ => rfl) (fun _ => ⟨nofun, rfl⟩) fun _ => ⟨nofun, rfl⟩
  | before => exact ⟨nofun, rfl⟩
  | torn left written => exact ⟨nofun, rfl⟩
  | after => exact ⟨nofun, rfl⟩

theorem shrinkTail_inRange (h : s.InRange) (ho : Owned s) (hc : s.commits ∨ s.PendingBelow) :
    wp shrinkTail (fun _ s' => s'.InRange) (fun e s' => e ≠ .panic ∧ s'.InRange) s := by
  unfold shrinkTail
  rw [wp_bind]
  refine wp_mono (wp_and (h.flush_inRange ho) (flush_owned ho)) ?_ fun _ _ he => he.1
  rintro _ s₁ ⟨h₁, ho₁, -, hmode⟩
  -- from the second flush on
  have hcut : ∀ {s₂ : Vfs}, s₂.InRange → wp (do
        let s ← get
        let newLen ← fromExcept (slotOffset s.dataOffset s.tree.nextChunkId)
        let oldLen ← onContainer Container.dataFileLen
        if oldLen ≤ newLen then pure 0
        else do
          onContainer (Container.truncateDataFile newLen)
          pure (oldLen - newLen) : VfsM Nat)
      (fun _ s' => s'.InRange) (fun e s' => e ≠ .panic ∧ s'.InRange) s₂ := by
    intro s₂ h₂
    rw [wp_bind, wp_get, wp_bind, wp_fromExcept]
    refine ⟨fun newLen hlen => ?_, fun e he => ⟨?_, h₂⟩⟩
    · rw [wp_bind, wp_onContainer]
      unfold Container.dataFileLen
      rw [wp_bind]
      refine Container.ioCall_spec (fun io => ?_) fun io => ⟨nofun, h₂.container rfl⟩
      rw [wp_bind, wp_get]
      show wp (if _ then _ else _) _ _ _
      split
      · exact h₂.container rfl
      · rw [wp_bind, wp_onContainer]
        refine wp_mono truncateDataFile_header (fun _ c hheader => h₂.container hheader) ?_
        exact fun e c he => ⟨he.1, h₂.container he.2⟩
    · rw [Container.slotOffset_plain he]
      exact nofun
  rw [wp_bind, wp_get, wp_bind, wp_fromExcept]
  refine ⟨fun keep hkeep => ?_, fun e he => ⟨?_, h₁⟩⟩
  · split
    · next hlt =>
        have hbelow := flushed_below hc hmode keep hkeep
        have ho₂ := lowered_owned ho₁ (firstUnusedTailSlot_above hkeep) hbelow
        rw [wp_bind, wp_modify, wp_bind]
        exact wp_mono ((h₁.lowered hlt.le).flush_inRange ho₂) (fun _ _ h₂ => hcut h₂)
          fun _ _ he => he
    · exact hcut h₁
  · obtain ⟨n, hn, -⟩ := firstUnusedTailSlot_ok (h₁.countable ho₁).next
    have he : firstUnusedTailSlot s₁.tree = .error e := he
    rw [hn] at he
    cases he

theorem shrink_inRange (h : s.InRange) (ho : Owned s) (hc : s.commits ∨ s.PendingBelow) :
    wp shrink (fun _ s' => s'.InRange) (fun e s' => e ≠ .panic ∧ s'.InRange) s := by
  unfold shrink
  rw [wp_bind, wp_ensureWritable]
  refine ⟨fun _ => ⟨nofun, h⟩, fun _ => ?_⟩
  rw [wp_bind, wp_get]
  split
  · exact ⟨nofun, h⟩
  · exact h.shrinkTail_inRange ho hc

/-- The question whether to give space back reports the space first. -/
theorem giveBack_noPanic (h : s.InRange) (ho : Owned s) :
    wp giveBack (fun _ _ => True) (fun e _ => e ≠ .panic) s := by
  unfold giveBack
  rw [wp_bind, wp_get]
  split
  · exact trivial
  · exact trivial
  · rw [wp_bind]
    exact wp_mono spaceReport_spec (fun _ _ _ => trivial) fun _ _ he => he.1 (h.countable ho)

theorem finish_inRange (h : s.InRange) (ho : Owned s) (hc : s.commits ∨ s.PendingBelow) :
    wp finish (fun _ s' => s'.InRange) (fun e s' => e ≠ .panic ∧ s'.InRange) s := by
  unfold finish
  rw [wp_bind]
  refine wp_mono (wp_and (h.flush_inRange ho) (flush_owned ho)) ?_ fun _ _ he => he.1
  rintro _ s₁ ⟨h₁, ho₁, -, hmode⟩
  have hbelow : s₁.PendingBelow := flushed_below hc hmode
  rw [wp_bind, wp_get]
  split
  · exact h₁
  · rw [wp_bind]
    refine wp_mono (wp_and giveBack_spec (h₁.giveBack_noPanic ho₁)) ?_ ?_
    · rintro answer s₂ ⟨⟨env, rfl⟩, -⟩
      split
      · exact h₁.withEnv.shrink_inRange ho₁.withEnv (.inr hbelow)
      · exact h₁.withEnv
    · rintro e s₂ ⟨⟨env, rfl⟩, he⟩
      exact ⟨he, h₁.withEnv⟩

theorem exec_shrink (h : s.InRange) (ho : Owned s) {op : Op} (hop : op.shrinks = true)
    (hc : s.commits ∨ s.PendingBelow) :
    wp (exec op) (fun _ s' => s'.InRange) (fun e s' => e ≠ .panic ∧ s'.InRange) s := by
  cases op with
  | shrink =>
      unfold exec
      rw [wp_map]
      exact h.shrink_inRange ho hc
  | shrinkAllowDeniable =>
      unfold exec shrinkAllowDeniable
      rw [wp_map, wp_bind, wp_ensureWritable]
      exact ⟨fun _ => ⟨nofun, h⟩, fun _ => h.shrinkTail_inRange ho hc⟩
  | finish =>
      unfold exec
      rw [wp_map]
      exact h.finish_inRange ho hc
  | _ => cases hop

theorem exec_spec (h : s.InRange) (ho : Owned s) {op : Op}
    (hop : op.isLocal = true ∨ op.shrinks = true) (hc : s.CutsSafely op) :
    wp (exec op) (fun _ s' => s'.InRange) (fun e s' => e ≠ .panic ∧ s'.InRange) s := by
  rcases hop with hlocal | hcut
  · exact h.exec_local ho hlocal
  · exact h.exec_shrink ho hcut (hc hcut)

theorem run (h : s.InRange) (ho : Owned s) {calls : List Call}
    (hops : ∀ c ∈ calls, c.op.isLocal = true ∨ c.op.shrinks = true) (hc : s.RunsSafely calls) :
    (s.run calls).InRange := by
  induction calls generalizing s with
  | nil => exact h
  | cons c calls ih =>
      have hop := hops c List.mem_cons_self
      have hspec := exec_spec (@withEnv s h c.env) ho.withEnv hop hc.1
      have hstep : (s.step c).InRange :=
        step_of_wp (wp_mono hspec (fun _ _ h' => h') fun _ _ h' => h'.2)
      rw [run_cons]
      refine ih hstep (step_owned ho hop hc.1) ?_ hc.2
      exact fun c' hc' => hops c' (List.mem_cons_of_mem _ hc')

end InRange

end Vfs

/-! ## Where it starts -/

/-- The repair of stale parents leaves everything but parents alone. -/
theorem get?_repaired {t : DirectoryTree} {id : FileId} {i' : Inode}
    (h : (repairStaleParents t).inodes.get? id = some i') :
    ∃ i p, t.inodes.get? id = some i ∧ i' = { i with parent := p } := by
  unfold repairStaleParents at h
  rw [OrdMap.get?_mapWithKey] at h
  obtain ⟨i, hi, rfl⟩ := Option.map_eq_some_iff.mp h
  split
  · exact ⟨i, i.parent, hi, rfl⟩
  · split
    · split
      · next p _ => exact ⟨i, p, hi, rfl⟩
      · exact ⟨i, i.parent, hi, rfl⟩
    · exact ⟨i, i.parent, hi, rfl⟩

theorem repaired_keeps {W : Type} {g : Inode → W} (hg : ∀ i p, g { i with parent := p } = g i)
    {t : DirectoryTree} : (repairStaleParents t).inodes.mapVals g = t.inodes.mapVals g := by
  refine OrdMap.ext_get? fun id => ?_
  rw [OrdMap.get?_mapVals, OrdMap.get?_mapVals]
  cases hi' : (repairStaleParents t).inodes.get? id with
  | some i' =>
      obtain ⟨i, p, hi, rfl⟩ := get?_repaired hi'
      rw [hi]
      exact congrArg some (hg i p)
  | none =>
      unfold repairStaleParents at hi'
      rw [OrdMap.get?_mapWithKey, Option.map_eq_none_iff] at hi'
      rw [hi']

theorem Owned.repaired {s : Vfs} {t : DirectoryTree} {dataOffset : Nat} {hideSize : Bool}
    (ht : s.tree = repairStaleParents t) (hv : Valid t dataOffset hideSize) (hfit : EntriesFit t)
    (hp : s.pendingFree = []) : Owned s := by
  have hl : Ledger ⟨[], [], s.withTree t⟩ := Ledger.ofValid (s := s.withTree t) hv hp
  have hrefs : s.tree.inodes.mapVals Inode.refIds = t.inodes.mapVals Inode.refIds :=
    ht ▸ repaired_keeps fun _ _ => rfl
  refine ⟨ht ▸ (TreeInv.ofValid hv hfit).repaired, hl.of_le (fun x => ?_) ?_⟩
  · have hids : ∀ i : Inode, i.refIds = id i.refIds := fun _ => rfl
    have htally := OrdMap.tally_congr hids hrefs (x := x)
    have hfree : s.tree.freeChunks = t.freeChunks := ht ▸ rfl
    unfold Cfg.held
    simp only [Vfs.withTree]
    rw [htally, hfree]
  · rw [ht]
    exact le_refl _

/-- What `open` lets through, if its metadata lists no file of more chunks than a
`u64` counts bytes for: no length has been looked up yet. -/
theorem StartsRepaired.owned_inRange {s : Vfs} (hs : StartsRepaired s) (hp : s.pendingFree = [])
    (hlen : ∀ f i, s.tree.inodes.get? f = some i → i.chunks.length ≤ 2 ^ 51)
    (hcached : ∀ f i, s.tree.inodes.get? f = some i → i.cachedRealSize = none) :
    Owned s ∧ s.InRange := by
  rcases hs with ht | ⟨t, hok, hfit, ht⟩
  · have hroot : ∀ f i, s.tree.inodes.get? f = some i → i = DirectoryTree.newRoot :=
      fun f i hi => DirectoryTree.eq_newRoot (ht ▸ hi)
    refine ⟨(show Starts s from Or.inl ht).owned hp, fun f i hi => ?_, ?_, fun f i hi => ?_⟩
    · refine ⟨hlen f i hi, fun hk => ?_, fun hk => ?_⟩
      · rw [hroot f i hi] at hk
        cases hk
      · rw [hroot f i hi] at hk
        cases hk
    · rw [ht]
      decide
    · rw [hroot f i hi]
      exact nofun
  · have hv := validate_iff.mp hok
    refine ⟨Owned.repaired ht hv hfit hp, fun f i' hi' => ?_, ?_, fun f i' hi' hk => ?_⟩
    · have hin := hi'
      rw [ht] at hin
      obtain ⟨i, p, hi, rfl⟩ := get?_repaired hin
      refine ⟨hlen f _ hi', fun hk hplain => ?_, fun _ _ n hn => ?_⟩
      · have hsize := (hv.inodes f i hi).fileSize hk
        unfold FileSizeOk at hsize
        rw [if_neg (by rw [hplain]; exact nofun)] at hsize
        intro hpos
        have hpos : 0 < i.size := hpos
        unfold requiredChunks at hsize
        rw [if_neg (by omega)] at hsize
        simp only [Bool.false_eq_true, if_false] at hsize
        show i.size + headerLen s.hideSize ≤ i.chunks.length * chunkPlaintextSize
        unfold headerLen chunkPlaintextSize at *
        rw [hplain]
        simp only [Bool.false_eq_true, if_false]
        omega
      · have hnone := hcached f _ hi'
        have hnone : i.cachedRealSize = none := hnone
        rw [hnone] at hn
        cases hn
    · have hfits : slotFits s.dataOffset t.nextChunkId = true := by
        have hcount := hv.counters
        unfold validateCounters at hcount
        exact (Bool.and_eq_true_iff.mp hcount).2
      unfold slotFits at hfits
      rw [ht]
      cases hoff : slotOffset s.dataOffset t.nextChunkId with
      | error e =>
          rw [hoff] at hfits
          cases hfits
      | ok off =>
          have hle := (Container.slotOffset_eq_ok hoff).2
          have hslot : t.nextChunkId ≤ t.nextChunkId * chunkSlotSize :=
            Nat.le_mul_of_pos_right _ (by decide)
          exact (hslot.trans (Nat.le_add_left _ _)).trans hle
    · rw [ht] at hi'
      obtain ⟨i, p, hi, rfl⟩ := get?_repaired hi'
      obtain ⟨target, htarget, -⟩ := (hv.inodes f i hi).target hk
      show i.symlinkTarget ≠ none
      rw [htarget]
      exact nofun

/-- No call of a session panics: whatever the calls before it returned, whichever
writes failed, and whatever it is given. -/
theorem no_call_panics {s : Vfs} (hs : StartsRepaired s) (hp : s.pendingFree = [])
    (hlen : ∀ f i, s.tree.inodes.get? f = some i → i.chunks.length ≤ 2 ^ 51)
    (hcached : ∀ f i, s.tree.inodes.get? f = some i → i.cachedRealSize = none) {calls : List Call}
    (hops : ∀ c ∈ calls, c.op.isLocal = true ∨ c.op.shrinks = true) (hc : s.RunsSafely calls)
    {c : Call} (hop : c.op.isLocal = true ∨ c.op.shrinks = true)
    (hcut : (s.run calls).CutsSafely c.op) {e : Failure} {s' : Vfs}
    (herr : (s.run calls).call c = .error e s') : e ≠ .panic := by
  obtain ⟨ho, hr⟩ := hs.owned_inRange hp hlen hcached
  have hrun : ((s.run calls).withEnv c.env).InRange := (hr.run ho hops hc).withEnv
  have howned : Owned ((s.run calls).withEnv c.env) := (Vfs.run_owned ho hops hc).withEnv
  have hspec := hrun.exec_spec howned hop hcut
  exact (wp_error hspec herr).1

/-- A file of two chunks, a write that fails half way through it, and a shrink. -/
def tornCalls : List Call :=
  [ (Op.create 1 "f" 0o644).quiet, (Op.truncate 2 8192).quiet, tornWrite, Op.shrink.quiet ]

/-- The first chunk cannot be read any more, and to say so is all a read does. -/
theorem no_call_panics_torn : ∃ e s',
    (roomyVfs.run tornCalls).call (Op.read 2 0 16).quiet = .error e s' ∧ e ≠ .panic := by
  have hfails : (match (roomyVfs.run tornCalls).call (Op.read 2 0 16).quiet with
      | .error _ _ => true
      | .ok _ _ => false) = true := by decide +kernel
  have hlen : ∀ f i, roomyVfs.tree.inodes.get? f = some i → i.chunks.length ≤ 2 ^ 51 := by
    intro f i hi
    rw [DirectoryTree.eq_newRoot hi]
    exact Nat.zero_le _
  have hcached : ∀ f i, roomyVfs.tree.inodes.get? f = some i → i.cachedRealSize = none := by
    intro f i hi
    rw [DirectoryTree.eq_newRoot hi]
    rfl
  have hruns : roomyVfs.RunsSafely tornCalls :=
    ⟨nofun, nofun, nofun, fun _ => .inl ⟨by decide +kernel, .inl (by decide +kernel)⟩, trivial⟩
  cases hrun : (roomyVfs.run tornCalls).call (Op.read 2 0 16).quiet with
  | ok r s' =>
      rw [hrun] at hfails
      cases hfails
  | error e s' =>
      have hcut : (roomyVfs.run tornCalls).CutsSafely (Op.read 2 0 16) := nofun
      exact ⟨e, s', rfl, no_call_panics (Or.inl rfl) rfl hlen hcached (by decide) hruns (.inl rfl)
        hcut hrun⟩

end Luksbox
