import Luksbox.Proofs.Namespace

/-!
# What the validator accepts

`validate_iff` says exactly which trees pass `validate_metadata_tree`. The walk
over the inodes is a fold, and so are the loops inside it; for each the lemma
here gives the condition under which it returns and the tally it returns, and
the conditions of the parts add up to those of the whole.
-/

namespace Luksbox

open Lib Relation

/-! ## Counting entries -/

/-- The counts after one more entry for each of the ids, saturating. -/
def bump (counts : FileId → Nat) (ids : List FileId) : FileId → Nat := fun x =>
  if ids.count x = 0 then counts x else min (counts x + ids.count x) u32Max

theorem bump_nil {counts : FileId → Nat} : bump counts [] = counts := by
  funext x
  simp [bump]

theorem bump_cons {counts : FileId → Nat} {id : FileId} {ids : List FileId} :
    bump (Function.update counts id (min (counts id + 1) u32Max)) ids = bump counts (id :: ids) := by
  funext x
  unfold bump
  rw [List.count_cons]
  by_cases hx : id = x
  · subst hx
    rw [Function.update_self, beq_self_eq_true, if_pos rfl]
    split
    · next h => simp [h]
    · rw [if_neg (by omega)]
      omega
  · rw [Function.update_of_ne (fun he => hx he.symm)]
    have hb : (id == x) = false := beq_eq_false_iff_ne.mpr hx
    simp [hb]

theorem bump_append {counts : FileId → Nat} {ids ids' : List FileId} :
    bump (bump counts ids) ids' = bump counts (ids ++ ids') := by
  induction ids generalizing counts with
  | nil => rw [bump_nil]; rfl
  | cons id ids ih => rw [← bump_cons, ih, List.cons_append, ← bump_cons]

/-- Whether an id is a directory of the tree. -/
def IsDir (tree : DirectoryTree) (id : FileId) : Prop :=
  ∃ i, tree.inodes.get? id = some i ∧ i.kind = .directory

/-- A directory entry the validator accepts, counts aside. -/
def EntryOk (tree : DirectoryTree) (entry : String × FileId) : Prop :=
  (validateName entry.1).isOk = true ∧ entry.2 ≠ rootId ∧
    ∃ child, tree.inodes.get? entry.2 = some child

/-- No directory is named twice, counting what was counted before. -/
def SingleDirs (tree : DirectoryTree) (counts : FileId → Nat) (ids : List FileId) : Prop :=
  ∀ x ∈ ids, IsDir tree x → counts x + ids.count x ≤ 1

theorem validateChild_eq_ok {tree : DirectoryTree} {counts counts' : FileId → Nat}
    {entry : String × FileId} :
    validateChild tree counts entry.1 entry.2 = .ok counts' ↔
      EntryOk tree entry ∧ (IsDir tree entry.2 → counts entry.2 = 0) ∧
        counts' = Function.update counts entry.2 (min (counts entry.2 + 1) u32Max) := by
  unfold validateChild EntryOk IsDir
  have hmax : 1 < u32Max := by decide
  cases hn : (validateName entry.1).isOk with
  | false => simp [invalidMetadata]
  | true =>
      by_cases hr : entry.2 = rootId
      · simp [hr, invalidMetadata]
      · cases hc : tree.inodes.get? entry.2 with
        | none => simp [hr, invalidMetadata]
        | some child =>
            by_cases hk : child.kind = .directory ∧ min (counts entry.2 + 1) u32Max > 1
            · have hne : counts entry.2 ≠ 0 := by omega
              constructor
              · intro h
                rw [if_neg (by simp [hr])] at h
                simp only [if_pos hk, invalidMetadata] at h
                cases h
              · rintro ⟨-, hz, -⟩
                exact absurd (hz ⟨child, rfl, hk.1⟩) hne
            · simp only [Bool.not_true, Bool.false_or, beq_eq_false_iff_ne.mpr hr,
                Bool.false_eq_true, if_false, if_neg hk, true_and, Option.some.injEq,
                exists_eq_left', Except.ok.injEq]
              constructor
              · intro h
                exact ⟨⟨hr, child, rfl⟩, fun hdir => by by_contra hne; exact hk ⟨hdir, by omega⟩, h.symm⟩
              · intro h
                exact h.2.2.symm

theorem validateChildren_eq_ok {tree : DirectoryTree} {l : List (String × FileId)}
    {counts counts' : FileId → Nat} :
    l.foldlM (fun counts entry => validateChild tree counts entry.1 entry.2) counts = .ok counts' ↔
      (∀ entry ∈ l, EntryOk tree entry) ∧ SingleDirs tree counts (l.map Prod.snd) ∧
        counts' = bump counts (l.map Prod.snd) := by
  induction l generalizing counts with
  | nil =>
      rw [foldlM_nil_eq_ok]
      simp [SingleDirs, bump_nil, eq_comm]
  | cons e l ih =>
      have hmax : 1 ≤ u32Max := by decide
      rw [foldlM_cons_eq_ok]
      constructor
      · rintro ⟨c₁, h₁, h₂⟩
        obtain ⟨hok, hzero, rfl⟩ := validateChild_eq_ok.mp h₁
        obtain ⟨hall, hsingle, rfl⟩ := ih.mp h₂
        refine ⟨?_, ?_, ?_⟩
        · intro e' he'
          rcases List.mem_cons.mp he' with rfl | he'
          · exact hok
          · exact hall e' he'
        · intro x hx hdir
          rw [List.map_cons, List.count_cons]
          by_cases hex : e.2 = x
          · subst hex
            have h0 := hzero hdir
            by_cases hmem : e.2 ∈ l.map Prod.snd
            · have := hsingle e.2 hmem hdir
              rw [Function.update_self, h0] at this
              have hpos := List.count_pos_iff.mpr hmem
              omega
            · rw [List.count_eq_zero.mpr hmem, h0]
              simp
          · have hmem : x ∈ l.map Prod.snd := by
              rw [List.map_cons] at hx
              exact (List.mem_cons.mp hx).resolve_left (fun h => hex h.symm)
            have := hsingle x hmem hdir
            rw [Function.update_of_ne (fun h => hex h.symm)] at this
            rw [beq_eq_false_iff_ne.mpr hex]
            exact this
        · rw [bump_cons]
          rfl
      · rintro ⟨hall, hsingle, rfl⟩
        have hzero : IsDir tree e.2 → counts e.2 = 0 := by
          intro hdir
          have := hsingle e.2 List.mem_cons_self hdir
          rw [List.map_cons, List.count_cons, beq_self_eq_true, if_pos rfl] at this
          omega
        refine ⟨_, validateChild_eq_ok.mpr ⟨hall e List.mem_cons_self, hzero, rfl⟩, ?_⟩
        refine ih.mpr ⟨fun e' he' => hall e' (List.mem_cons_of_mem _ he'), ?_, ?_⟩
        · intro x hx hdir
          have := hsingle x (List.mem_cons_of_mem _ hx) hdir
          rw [List.map_cons, List.count_cons] at this
          by_cases hex : e.2 = x
          · subst hex
            rw [Function.update_self, hzero hdir]
            rw [beq_self_eq_true, if_pos rfl] at this
            omega
          · rw [Function.update_of_ne (fun h => hex h.symm)]
            omega
        · rw [bump_cons]
          rfl

/-! ## Taking slots -/

/-- A chunk reference the validator accepts, collisions aside. -/
def RefOk (tree : DirectoryTree) (dataOffset : Nat) (c : ChunkRef) : Prop :=
  c.id < tree.nextChunkId ∧ 0 < c.generation ∧ c.generation < tree.nextChunkGen ∧
    slotFits dataOffset c.id = true

theorem validateChunkRef_eq_ok {tree : DirectoryTree} {dataOffset : Nat} {live live' : Finset ChunkId}
    {c : ChunkRef} :
    validateChunkRef tree dataOffset live c = .ok live' ↔
      RefOk tree dataOffset c ∧ c.id ∉ live ∧ live' = insert c.id live := by
  unfold validateChunkRef RefOk
  split
  · next h =>
      constructor
      · intro h'
        cases h'
      · rintro ⟨⟨h1, h2, h3, h4⟩, h5, -⟩
        rcases h with h | h | h | h | h
        · exact absurd h1 (Nat.not_lt.mpr h)
        · exact absurd h (Nat.pos_iff_ne_zero.mp h2)
        · exact absurd h3 (Nat.not_lt.mpr h)
        · rw [h4] at h
          cases h
        · exact absurd h h5
  · next h =>
      simp only [not_or, ge_iff_le, Nat.not_le, Bool.not_eq_false] at h
      constructor
      · intro h'
        injection h' with h'
        exact ⟨⟨h.1, Nat.pos_of_ne_zero h.2.1, h.2.2.1, h.2.2.2.1⟩, h.2.2.2.2, h'.symm⟩
      · rintro ⟨-, -, rfl⟩
        rfl

theorem validateChunkRefs_eq_ok {tree : DirectoryTree} {dataOffset : Nat} {l : List ChunkRef}
    {live live' : Finset ChunkId} :
    l.foldlM (validateChunkRef tree dataOffset) live = .ok live' ↔
      (∀ c ∈ l, RefOk tree dataOffset c) ∧ (l.map ChunkRef.id).Nodup ∧
        (∀ id ∈ l.map ChunkRef.id, id ∉ live) ∧ live' = live ∪ (l.map ChunkRef.id).toFinset := by
  induction l generalizing live with
  | nil =>
      rw [foldlM_nil_eq_ok]
      simp [eq_comm]
  | cons c l ih =>
      rw [foldlM_cons_eq_ok]
      constructor
      · rintro ⟨l₁, h₁, h₂⟩
        obtain ⟨hok, hnew, rfl⟩ := validateChunkRef_eq_ok.mp h₁
        obtain ⟨hall, hnd, hdisj, rfl⟩ := ih.mp h₂
        refine ⟨?_, ?_, ?_, ?_⟩
        · intro c' hc'
          rcases List.mem_cons.mp hc' with rfl | hc'
          · exact hok
          · exact hall c' hc'
        · rw [List.map_cons, List.nodup_cons]
          exact ⟨fun hmem => hdisj c.id hmem (Finset.mem_insert_self _ _), hnd⟩
        · intro id hid
          rw [List.map_cons] at hid
          rcases List.mem_cons.mp hid with rfl | hid
          · exact hnew
          · exact fun hmem => hdisj id hid (Finset.mem_insert_of_mem hmem)
        · ext x
          simp only [Finset.mem_union, Finset.mem_insert, List.map_cons, List.toFinset_cons]
          tauto
      · rintro ⟨hall, hnd, hdisj, rfl⟩
        rw [List.map_cons, List.nodup_cons] at hnd
        refine ⟨_, validateChunkRef_eq_ok.mpr ⟨hall c List.mem_cons_self,
          hdisj c.id List.mem_cons_self, rfl⟩, ih.mpr ⟨fun c' hc' =>
            hall c' (List.mem_cons_of_mem _ hc'), hnd.2, ?_, ?_⟩⟩
        · intro id hid hmem
          rcases Finset.mem_insert.mp hmem with rfl | hmem
          · exact hnd.1 hid
          · exact hdisj id (List.mem_cons_of_mem _ hid) hmem
        · ext x
          simp only [Finset.mem_union, Finset.mem_insert, List.map_cons, List.toFinset_cons]
          tauto

/-! ## One inode -/

/-- The slots an inode refers to: its data chunks, then its list blocks. -/
def Inode.refIds (i : Inode) : List ChunkId :=
  i.chunks.map ChunkRef.id ++ i.externalListBlocks.map ChunkRef.id

/-- The relation between a file's size field and its chunk count. -/
def FileSizeOk (hideSize : Bool) (i : Inode) : Prop :=
  if hideSize = true then
    i.chunks.length * chunkPlaintextSize ≤ u64Max ∧
      i.size = i.chunks.length * chunkPlaintextSize
  else requiredChunks i.size false ≤ i.chunks.length

/-- What the walk requires of one inode by itself. -/
structure InodeOk (tree : DirectoryTree) (dataOffset : Nat) (hideSize : Bool) (id : FileId)
    (i : Inode) : Prop where
  ident : i.id = id
  bound : id < tree.nextFileId
  parent : parentRefused tree id i = false
  entries : ∀ e ∈ i.children.entries, EntryOk tree e
  refs : ∀ c ∈ i.chunks ++ i.externalListBlocks, RefOk tree dataOffset c
  leaf : i.kind ≠ .directory → i.children.isEmpty = true
  noData : i.kind ≠ .file → i.chunks = [] ∧ i.externalListBlocks = []
  dirSize : i.kind = .directory → i.size = 0
  noTarget : i.kind ≠ .symlink → i.symlinkTarget = none
  target : i.kind = .symlink → ∃ t, i.symlinkTarget = some t ∧ isSafeSymlinkTarget t = true
  link : i.kind ≠ .file → i.linkCount = 1
  linked : i.linkCount ≠ 0
  fileSize : i.kind = .file → FileSizeOk hideSize i

/-- What one step of the walk does to the tally. -/
def tallied (tally : Tally) (i : Inode) : Tally :=
  ⟨bump tally.entryCounts i.children.values, tally.liveChunks ∪ i.refIds.toFinset⟩

/-- What it requires of the inode and the tally together. -/
structure TallyOk (tree : DirectoryTree) (tally : Tally) (i : Inode) : Prop where
  single : SingleDirs tree tally.entryCounts i.children.values
  nodup : i.refIds.Nodup
  disjoint : ∀ x ∈ i.refIds, x ∉ tally.liveChunks

theorem values_eq_nil {m : OrdMap String FileId} (h : m.isEmpty = true) : m.values = [] := by
  rw [List.eq_nil_iff_forall_not_mem]
  intro c hc
  obtain ⟨n, hn⟩ := OrdMap.mem_values_iff.mp hc
  rw [OrdMap.isEmpty_iff.mp h n] at hn
  cases hn

theorem entries_eq_nil {m : OrdMap String FileId} (h : m.isEmpty = true) : m.entries = [] := by
  rw [List.eq_nil_iff_forall_not_mem]
  rintro ⟨n, c⟩ hc
  rw [← OrdMap.get?_eq_some_iff, OrdMap.isEmpty_iff.mp h n] at hc
  cases hc

/-- Without chunks and entries a step leaves the tally alone. -/
theorem tallied_of_empty {tally : Tally} {i : Inode} (hch : i.children.isEmpty = true)
    (hc : i.chunks = []) (hl : i.externalListBlocks = []) : tallied tally i = tally := by
  simp [tallied, Inode.refIds, values_eq_nil hch, hc, hl, bump_nil]

theorem tallyOk_of_empty {tree : DirectoryTree} {tally : Tally} {i : Inode}
    (hch : i.children.isEmpty = true) (hc : i.chunks = []) (hl : i.externalListBlocks = []) :
    TallyOk tree tally i := by
  constructor
  · intro x hx
    rw [values_eq_nil hch] at hx
    cases hx
  · simp [Inode.refIds, hc, hl]
  · simp [Inode.refIds, hc, hl]

theorem validateDirectory_eq_ok {tree : DirectoryTree} {tally tally' : Tally} {i : Inode} :
    validateDirectory tree tally i = .ok tally' ↔
      (i.size = 0 ∧ i.chunks = [] ∧ i.externalListBlocks = [] ∧ i.symlinkTarget = none ∧
        i.linkCount = 1 ∧ ∀ e ∈ i.children.entries, EntryOk tree e) ∧
      TallyOk tree tally i ∧ tally' = tallied tally i := by
  unfold validateDirectory
  split
  · next h =>
      refine ⟨nofun, ?_⟩
      rintro ⟨⟨h1, h2, h3, -⟩, -⟩
      rcases h with h | h | h
      · exact absurd h1 h
      · exact absurd h2 h
      · exact absurd h3 h
  · next h =>
      simp only [not_or, not_not] at h
      obtain ⟨h1, h2, h3⟩ := h
      split
      · next ht =>
          refine ⟨nofun, ?_⟩
          rintro ⟨⟨-, -, -, hn, -⟩, -⟩
          rw [hn] at ht
          cases ht
      · next ht =>
          have ht : i.symlinkTarget = none := by simpa using ht
          split
          · next hl =>
              refine ⟨nofun, ?_⟩
              rintro ⟨⟨-, -, -, -, hn, -⟩, -⟩
              exact absurd hn hl
          · next hl =>
              have hl : i.linkCount = 1 := not_not.mp hl
              rw [except_bind_eq_ok]
              have htally : tallied tally i =
                  { tally with entryCounts := bump tally.entryCounts i.children.values } := by
                simp [tallied, Inode.refIds, h2, h3]
              constructor
              · rintro ⟨counts, hc, hr⟩
                obtain ⟨hall, hsingle, rfl⟩ := validateChildren_eq_ok.mp hc
                injection hr with hr
                refine ⟨⟨h1, h2, h3, ht, hl, hall⟩, ⟨hsingle, ?_, ?_⟩, ?_⟩
                · simp [Inode.refIds, h2, h3]
                · simp [Inode.refIds, h2, h3]
                · rw [htally]
                  exact hr.symm
              · rintro ⟨⟨-, -, -, -, -, hall⟩, htok, rfl⟩
                refine ⟨_, validateChildren_eq_ok.mpr ⟨hall, htok.single, rfl⟩, ?_⟩
                rw [htally]
                rfl

theorem validateSymlink_eq_ok {tree : DirectoryTree} {tally tally' : Tally} {i : Inode} :
    validateSymlink tally i = .ok tally' ↔
      (i.children.isEmpty = true ∧ i.chunks = [] ∧ i.externalListBlocks = [] ∧ i.linkCount = 1 ∧
        ∃ t, i.symlinkTarget = some t ∧ isSafeSymlinkTarget t = true) ∧
      TallyOk tree tally i ∧ tally' = tallied tally i := by
  unfold validateSymlink
  split
  · next h =>
      refine ⟨nofun, ?_⟩
      rintro ⟨⟨h1, h2, h3, h4, -⟩, -⟩
      rcases h with h | h | h | h
      · rw [h1] at h
        cases h
      · exact absurd h2 h
      · exact absurd h3 h
      · exact absurd h4 h
  · next h =>
      simp only [not_or, not_not, Bool.not_eq_false] at h
      obtain ⟨h1, h2, h3, h4⟩ := h
      have htally : tallied tally i = tally := tallied_of_empty h1 h2 h3
      cases ht : i.symlinkTarget with
      | none =>
          refine ⟨nofun, ?_⟩
          rintro ⟨⟨-, -, -, -, t, htn, -⟩, -⟩
          cases htn
      | some t =>
          simp only []
          split
          · next hs =>
              rw [htally]
              constructor
              · intro hr
                injection hr with hr
                exact ⟨⟨h1, h2, h3, h4, t, rfl, hs⟩, tallyOk_of_empty h1 h2 h3, hr.symm⟩
              · rintro ⟨-, -, rfl⟩
                rfl
          · next hs =>
              refine ⟨nofun, ?_⟩
              rintro ⟨⟨-, -, -, -, t', htn, hs'⟩, -⟩
              injection htn with htn
              exact absurd (htn ▸ hs') hs

theorem validateFile_eq_ok {tree : DirectoryTree} {dataOffset : Nat} {hideSize : Bool}
    {tally tally' : Tally} {i : Inode} :
    validateFile tree dataOffset hideSize tally i = .ok tally' ↔
      (i.children.isEmpty = true ∧ i.symlinkTarget = none ∧ i.linkCount ≠ 0 ∧
        FileSizeOk hideSize i ∧ ∀ c ∈ i.chunks ++ i.externalListBlocks, RefOk tree dataOffset c) ∧
      TallyOk tree tally i ∧ tally' = tallied tally i := by
  unfold validateFile
  split
  · next h =>
      refine ⟨nofun, ?_⟩
      rintro ⟨⟨h1, -⟩, -⟩
      rw [h1] at h
      cases h
  · next h1 =>
      have h1 : i.children.isEmpty = true := by simpa using h1
      split
      · next h =>
          refine ⟨nofun, ?_⟩
          rintro ⟨⟨-, h2, -⟩, -⟩
          rw [h2] at h
          cases h
      · next h2 =>
          have h2 : i.symlinkTarget = none := by simpa using h2
          split
          · next h =>
              refine ⟨nofun, ?_⟩
              rintro ⟨⟨-, -, h3, -⟩, -⟩
              exact absurd h h3
          · next h3 =>
              split
              · next h =>
                  refine ⟨nofun, ?_⟩
                  rintro ⟨⟨-, -, -, h4, -⟩, -⟩
                  rw [FileSizeOk, if_pos h.1] at h4
                  omega
              · next hhide =>
                  split
                  · next h =>
                      refine ⟨nofun, ?_⟩
                      rintro ⟨⟨-, -, -, h4, -⟩, -⟩
                      rw [FileSizeOk, if_neg h.1] at h4
                      omega
                  · next hplain =>
                      have h4 : FileSizeOk hideSize i := by
                        unfold FileSizeOk
                        split
                        · next hh =>
                            by_contra hne
                            exact hhide ⟨hh, by omega⟩
                        · next hh =>
                            by_contra hne
                            exact hplain ⟨hh, by omega⟩
                      simp only [except_bind_eq_ok]
                      constructor
                      · rintro ⟨l₁, hl₁, l₂, hl₂, hr⟩
                        obtain ⟨ha, hnd, hdis, rfl⟩ := validateChunkRefs_eq_ok.mp hl₁
                        obtain ⟨ha', hnd', hdis', rfl⟩ := validateChunkRefs_eq_ok.mp hl₂
                        injection hr with hr
                        refine ⟨⟨h1, h2, h3, h4, ?_⟩, ⟨?_, ?_, ?_⟩, ?_⟩
                        · intro c hc
                          rcases List.mem_append.mp hc with hc | hc
                          · exact ha c hc
                          · exact ha' c hc
                        · intro x hx
                          rw [values_eq_nil h1] at hx
                          cases hx
                        · refine List.nodup_append.mpr ⟨hnd, hnd', ?_⟩
                          rintro x hx y hy rfl
                          exact hdis' x hy (Finset.mem_union_right _ (List.mem_toFinset.mpr hx))
                        · intro x hx
                          rcases List.mem_append.mp hx with hx | hx
                          · exact hdis x hx
                          · exact fun hmem => hdis' x hx (Finset.mem_union_left _ hmem)
                        · rw [← hr]
                          simp [tallied, Inode.refIds, values_eq_nil h1, bump_nil,
                            Finset.union_assoc]
                      · rintro ⟨⟨-, -, -, -, hall⟩, htok, rfl⟩
                        obtain ⟨hnd, hnd', hsep⟩ := List.nodup_append.mp htok.nodup
                        refine ⟨_, validateChunkRefs_eq_ok.mpr ⟨fun c hc =>
                          hall c (List.mem_append_left _ hc), hnd, fun x hx =>
                            htok.disjoint x (List.mem_append_left _ hx), rfl⟩, _,
                          validateChunkRefs_eq_ok.mpr ⟨fun c hc =>
                            hall c (List.mem_append_right _ hc), hnd', ?_, rfl⟩, ?_⟩
                        · intro x hx hmem
                          rcases Finset.mem_union.mp hmem with hmem | hmem
                          · exact htok.disjoint x (List.mem_append_right _ hx) hmem
                          · exact hsep x (List.mem_toFinset.mp hmem) x hx rfl
                        · simp [tallied, Inode.refIds, values_eq_nil h1, bump_nil,
                            Finset.union_assoc]

theorem validateInode_eq_ok {tree : DirectoryTree} {dataOffset : Nat} {hideSize : Bool}
    {tally tally' : Tally} {id : FileId} {i : Inode} :
    validateInode tree dataOffset hideSize tally (id, i) = .ok tally' ↔
      InodeOk tree dataOffset hideSize id i ∧ TallyOk tree tally i ∧ tally' = tallied tally i := by
  unfold validateInode
  simp only []
  split
  · next h =>
      refine ⟨nofun, ?_⟩
      rintro ⟨hok, -⟩
      rcases h with h | h
      · exact absurd hok.ident h
      · exact absurd hok.bound (Nat.not_lt.mpr h)
  · next h =>
      simp only [not_or, not_not, ge_iff_le, Nat.not_le] at h
      split
      · next hp =>
          refine ⟨nofun, ?_⟩
          rintro ⟨hok, -⟩
          rw [hok.parent] at hp
          cases hp
      · next hp =>
          have hp : parentRefused tree id i = false := by simpa using hp
          cases hk : i.kind with
          | directory =>
              simp only []
              rw [validateDirectory_eq_ok]
              refine and_congr_left' ⟨?_, ?_⟩
              · rintro ⟨h1, h2, h3, h4, h5, h6⟩
                exact ⟨h.1, h.2, hp, h6, by simp [h2, h3], fun hn => absurd hk hn,
                  fun _ => ⟨h2, h3⟩, fun _ => h1, fun _ => h4, fun hn => (by rw [hk] at hn; cases hn),
                  fun _ => h5, by omega, fun hn => (by rw [hk] at hn; cases hn)⟩
              · intro hok
                have hdata := hok.noData (by rw [hk]; decide)
                exact ⟨hok.dirSize hk, hdata.1, hdata.2, hok.noTarget (by rw [hk]; decide),
                  hok.link (by rw [hk]; decide), hok.entries⟩
          | symlink =>
              simp only []
              rw [@validateSymlink_eq_ok tree]
              refine and_congr_left' ⟨?_, ?_⟩
              · rintro ⟨h1, h2, h3, h4, h5⟩
                exact ⟨h.1, h.2, hp, by rw [entries_eq_nil h1]; exact nofun, by simp [h2, h3],
                  fun _ => h1, fun _ => ⟨h2, h3⟩, fun hn => (by rw [hk] at hn; cases hn),
                  fun hn => absurd hk hn, fun _ => h5, fun _ => h4, by omega,
                  fun hn => (by rw [hk] at hn; cases hn)⟩
              · intro hok
                have hdata := hok.noData (by rw [hk]; decide)
                exact ⟨hok.leaf (by rw [hk]; decide), hdata.1, hdata.2,
                  hok.link (by rw [hk]; decide), hok.target hk⟩
          | file =>
              simp only []
              rw [validateFile_eq_ok]
              refine and_congr_left' ⟨?_, ?_⟩
              · rintro ⟨h1, h2, h3, h4, h5⟩
                exact ⟨h.1, h.2, hp, by rw [entries_eq_nil h1]; exact nofun, h5,
                  fun _ => h1, fun hn => absurd hk hn, fun hn => (by rw [hk] at hn; cases hn),
                  fun _ => h2, fun hn => (by rw [hk] at hn; cases hn), fun hn => absurd hk hn, h3,
                  fun _ => h4⟩
              · intro hok
                exact ⟨hok.leaf (by rw [hk]; decide), hok.noTarget (by rw [hk]; decide), hok.linked,
                  hok.fileSize hk, hok.refs⟩

/-! ## The walk -/

theorem singleDirs_append {tree : DirectoryTree} {counts : FileId → Nat} {a b : List FileId} :
    SingleDirs tree counts (a ++ b) ↔
      SingleDirs tree counts a ∧ SingleDirs tree (bump counts a) b := by
  have hmax : 1 ≤ u32Max := by decide
  constructor
  · intro h
    constructor
    · intro x hx hdir
      have := h x (List.mem_append_left _ hx) hdir
      rw [List.count_append] at this
      omega
    · intro x hx hdir
      have := h x (List.mem_append_right _ hx) hdir
      rw [List.count_append] at this
      unfold bump
      split <;> omega
  · rintro ⟨ha, hb⟩ x hx hdir
    rw [List.count_append]
    by_cases hxb : x ∈ b
    · have hcount := hb x hxb hdir
      have hpos := List.count_pos_iff.mpr hxb
      unfold bump at hcount
      split at hcount <;> omega
    · have hxa : x ∈ a := (List.mem_append.mp hx).resolve_right hxb
      have hcount := ha x hxa hdir
      rw [List.count_eq_zero.mpr hxb]
      exact hcount

/-- The ids in the entries of a list of inodes. -/
def kidsOf (l : List (FileId × Inode)) : List FileId := l.flatMap fun e => e.2.children.values

/-- Their slots. -/
def refsOf (l : List (FileId × Inode)) : List ChunkId := l.flatMap fun e => e.2.refIds

theorem walk_eq_ok {tree : DirectoryTree} {dataOffset : Nat} {hideSize : Bool}
    {l : List (FileId × Inode)} {tally tally' : Tally} :
    l.foldlM (validateInode tree dataOffset hideSize) tally = .ok tally' ↔
      (∀ e ∈ l, InodeOk tree dataOffset hideSize e.1 e.2) ∧
        SingleDirs tree tally.entryCounts (kidsOf l) ∧ (refsOf l).Nodup ∧
        (∀ x ∈ refsOf l, x ∉ tally.liveChunks) ∧
        tally' = ⟨bump tally.entryCounts (kidsOf l), tally.liveChunks ∪ (refsOf l).toFinset⟩ := by
  induction l generalizing tally with
  | nil =>
      rw [foldlM_nil_eq_ok]
      simp [kidsOf, refsOf, SingleDirs, bump_nil, eq_comm]
  | cons e l ih =>
      have hkids : kidsOf (e :: l) = e.2.children.values ++ kidsOf l := rfl
      have hrefs : refsOf (e :: l) = e.2.refIds ++ refsOf l := rfl
      rw [foldlM_cons_eq_ok, hkids, hrefs, singleDirs_append, ← bump_append, List.toFinset_append,
        ← Finset.union_assoc]
      constructor
      · rintro ⟨t₁, h₁, h₂⟩
        obtain ⟨hok, htok, rfl⟩ := validateInode_eq_ok.mp h₁
        obtain ⟨hall, hsingle, hnd, hdisj, rfl⟩ := ih.mp h₂
        refine ⟨?_, ⟨htok.single, hsingle⟩, List.nodup_append.mpr ⟨htok.nodup, hnd, ?_⟩, ?_, rfl⟩
        · intro e' he'
          rcases List.mem_cons.mp he' with rfl | he'
          · exact hok
          · exact hall e' he'
        · rintro x hx y hy rfl
          exact hdisj x hy (Finset.mem_union_right _ (List.mem_toFinset.mpr hx))
        · intro x hx
          rcases List.mem_append.mp hx with hx | hx
          · exact htok.disjoint x hx
          · exact fun hmem => hdisj x hx (Finset.mem_union_left _ hmem)
      · rintro ⟨hall, ⟨hs, hs'⟩, hnd, hdisj, rfl⟩
        obtain ⟨hnd₁, hnd₂, hsep⟩ := List.nodup_append.mp hnd
        refine ⟨tallied tally e.2, validateInode_eq_ok.mpr ⟨hall e List.mem_cons_self, ⟨hs, hnd₁, ?_⟩,
          rfl⟩, ih.mpr ⟨fun e' he' => hall e' (List.mem_cons_of_mem _ he'), hs', hnd₂, ?_, rfl⟩⟩
        · intro x hx
          exact hdisj x (List.mem_append_left _ hx)
        · intro x hx hmem
          rcases Finset.mem_union.mp hmem with hmem | hmem
          · exact hdisj x (List.mem_append_right _ hx) hmem
          · exact hsep x (List.mem_toFinset.mp hmem) x hx rfl

/-! ## The free list -/

/-- A free slot the validator accepts, repetitions aside. -/
def FreeOk (tree : DirectoryTree) (dataOffset : Nat) (live : Finset ChunkId) (id : ChunkId) : Prop :=
  id < tree.nextChunkId ∧ id ∉ live ∧ slotFits dataOffset id = true

theorem validateFreeChunk_eq_ok {tree : DirectoryTree} {dataOffset : Nat}
    {live free free' : Finset ChunkId} {id : ChunkId} :
    validateFreeChunk tree dataOffset live free id = .ok free' ↔
      FreeOk tree dataOffset live id ∧ id ∉ free ∧ free' = insert id free := by
  unfold validateFreeChunk FreeOk
  split
  · next h =>
      refine ⟨nofun, ?_⟩
      rintro ⟨⟨h1, h2, h3⟩, h4, -⟩
      rcases h with h | h | h | h
      · exact absurd h1 (Nat.not_lt.mpr h)
      · exact absurd h h2
      · rw [h3] at h
        cases h
      · exact absurd h h4
  · next h =>
      simp only [not_or, ge_iff_le, Nat.not_le, Bool.not_eq_false] at h
      constructor
      · intro h'
        injection h' with h'
        exact ⟨⟨h.1, h.2.1, h.2.2.1⟩, h.2.2.2, h'.symm⟩
      · rintro ⟨-, -, rfl⟩
        rfl

theorem validateFreeChunks_eq_ok {tree : DirectoryTree} {dataOffset : Nat} {live : Finset ChunkId}
    {l : List ChunkId} {free free' : Finset ChunkId} :
    l.foldlM (validateFreeChunk tree dataOffset live) free = .ok free' ↔
      (∀ id ∈ l, FreeOk tree dataOffset live id) ∧
        l.Nodup ∧ (∀ id ∈ l, id ∉ free) ∧ free' = free ∪ l.toFinset := by
  induction l generalizing free with
  | nil =>
      rw [foldlM_nil_eq_ok]
      simp only [List.not_mem_nil, IsEmpty.forall_iff, implies_true, List.nodup_nil,
        List.toFinset_nil, Finset.union_empty, true_and]
      exact eq_comm
  | cons id l ih =>
      rw [foldlM_cons_eq_ok, List.nodup_cons, List.toFinset_cons, Finset.union_insert,
        ← Finset.insert_union]
      constructor
      · rintro ⟨f₁, h₁, h₂⟩
        obtain ⟨hok, hid, rfl⟩ := validateFreeChunk_eq_ok.mp h₁
        obtain ⟨hall, hnd, hnew, rfl⟩ := ih.mp h₂
        refine ⟨?_, ⟨fun hmem => hnew id hmem (Finset.mem_insert_self _ _), hnd⟩, ?_, rfl⟩
        · intro x hx
          rcases List.mem_cons.mp hx with rfl | hx
          · exact hok
          · exact hall x hx
        · intro x hx
          rcases List.mem_cons.mp hx with rfl | hx
          · exact hid
          · exact fun hmem => hnew x hx (Finset.mem_insert_of_mem hmem)
      · rintro ⟨hall, ⟨hid, hnd⟩, hnew, rfl⟩
        refine ⟨_, validateFreeChunk_eq_ok.mpr ⟨hall id List.mem_cons_self,
          hnew id List.mem_cons_self, rfl⟩,
          ih.mpr ⟨fun x hx => hall x (List.mem_cons_of_mem _ hx), hnd, ?_, rfl⟩⟩
        intro x hx hmem
        rcases Finset.mem_insert.mp hmem with rfl | hmem
        · exact hid hx
        · exact hnew x (List.mem_cons_of_mem _ hx) hmem

/-! ## The whole tree -/

/-- The slots all inodes refer to. -/
def Inodes.refIds (m : Inodes) : List ChunkId := m.values.flatMap Inode.refIds

/-- What `validate_metadata_tree` accepts. -/
structure Valid (tree : DirectoryTree) (dataOffset : Nat) (hideSize : Bool) : Prop where
  counters : validateCounters tree dataOffset = true
  root : validateRoot tree = true
  inodes : ∀ id i, tree.inodes.get? id = some i → InodeOk tree dataOffset hideSize id i
  dirs : SingleDirs tree (fun _ => 0) tree.inodes.childIds
  refs : tree.inodes.refIds.Nodup
  counts : ∀ id i, tree.inodes.get? id = some i →
    validateCount (bump (fun _ => 0) tree.inodes.childIds) (id, i) = true
  reach : ∀ id i, tree.inodes.get? id = some i → ReflTransGen tree.inodes.Edge rootId id
  free : ∀ id ∈ tree.freeChunks,
    id < tree.nextChunkId ∧ id ∉ tree.inodes.refIds ∧ slotFits dataOffset id = true
  freeNodup : tree.freeChunks.Nodup

theorem edgeOf_childrenOf {tree : DirectoryTree} :
    EdgeOf (childrenOf tree) = tree.inodes.Edge := by
  funext d c
  apply propext
  rw [Inodes.edge_iff]
  unfold EdgeOf childrenOf
  constructor
  · rintro ⟨ys, hys, hc⟩
    obtain ⟨i, hi, rfl⟩ := Option.map_eq_some_iff.mp hys
    exact ⟨i, hi, hc⟩
  · rintro ⟨i, hi, hc⟩
    exact ⟨i.children.values, by rw [hi]; rfl, hc⟩

theorem kidsOf_entries {m : Inodes} : kidsOf m.entries = m.childIds := by
  unfold kidsOf Inodes.childIds OrdMap.values
  rw [List.flatMap_map]

theorem refsOf_entries {m : Inodes} : refsOf m.entries = m.refIds := by
  unfold refsOf Inodes.refIds OrdMap.values
  rw [List.flatMap_map]

theorem card_keys {m : Inodes} : m.keys.toFinset.card = m.size := by
  rw [List.toFinset_card_of_nodup m.keys_nodup, OrdMap.keys, List.length_map, OrdMap.size]

/-- The search from the root succeeds and sees as many inodes as there are
exactly when it sees all of them. -/
theorem collect_card {tree : DirectoryTree} (hroot : ∃ r, tree.inodes.get? rootId = some r)
    (hres : ∀ d n c, tree.inodes.HasEntry d n c → ∃ i, tree.inodes.get? c = some i) :
    (∃ r, collect (childrenOf tree) (tree.inodes.size + 1) [rootId] {rootId} = some r ∧
        r.card = tree.inodes.size) ↔
      ∀ id i, tree.inodes.get? id = some i → ReflTransGen tree.inodes.Edge rootId id := by
  have hrootmem : rootId ∈ tree.inodes.keys.toFinset := by
    rw [List.mem_toFinset]
    exact OrdMap.mem_keys_iff.mpr hroot
  -- everything reached is an inode of the tree
  have hsub : ∀ x, ReflTransGen tree.inodes.Edge rootId x → x ∈ tree.inodes.keys.toFinset := by
    intro x hx
    induction hx with
    | refl => exact hrootmem
    | tail _ hbc _ =>
        obtain ⟨n, hn⟩ := hbc
        rw [List.mem_toFinset]
        exact OrdMap.mem_keys_iff.mpr (hres _ n _ hn)
  constructor
  · rintro ⟨r, hr, hcard⟩ id i hi
    have hrsub : r ⊆ tree.inodes.keys.toFinset := by
      intro x hx
      rw [mem_collect_iff hr, edgeOf_childrenOf] at hx
      exact hsub x hx
    have heq : r = tree.inodes.keys.toFinset :=
      Finset.eq_of_subset_of_card_le hrsub (by rw [card_keys, hcard])
    have hmem : id ∈ r := by
      rw [heq, List.mem_toFinset]
      exact OrdMap.mem_keys_iff.mpr ⟨i, hi⟩
    rw [mem_collect_iff hr, edgeOf_childrenOf] at hmem
    exact hmem
  · intro hreach
    have htotal : ∃ r, collect (childrenOf tree) (tree.inodes.size + 1) [rootId] {rootId} = some r := by
      refine @collect_total _ _ _ tree.inodes.keys.toFinset ?_ _ _ _ ?_ ?_ ?_
      · intro x hx
        rw [List.mem_toFinset] at hx
        obtain ⟨i, hi⟩ := OrdMap.mem_keys_iff.mp hx
        refine ⟨i.children.values, by rw [childrenOf, hi]; rfl, ?_⟩
        intro y hy
        obtain ⟨n, hn⟩ := OrdMap.mem_values_iff.mp hy
        rw [List.mem_toFinset]
        exact OrdMap.mem_keys_iff.mpr (hres x n y ⟨i, hi, hn⟩)
      · intro x hx
        rw [List.mem_singleton] at hx
        rw [hx]
        exact hrootmem
      · intro x hx
        rw [Finset.mem_singleton] at hx
        rw [hx]
        exact hrootmem
      · rw [card_keys]
        simp
        omega
    obtain ⟨r, hr⟩ := htotal
    refine ⟨r, hr, ?_⟩
    have heq : r = tree.inodes.keys.toFinset := by
      ext x
      rw [mem_collect_iff hr, edgeOf_childrenOf]
      constructor
      · exact hsub x
      · intro hx
        rw [List.mem_toFinset] at hx
        obtain ⟨i, hi⟩ := OrdMap.mem_keys_iff.mp hx
        exact hreach x i hi
    rw [heq, card_keys]

theorem Valid.rootInode {tree : DirectoryTree} (h : validateRoot tree = true) :
    ∃ r, tree.inodes.get? rootId = some r ∧ r.id = rootId ∧ r.parent = rootId ∧
      r.kind = .directory := by
  unfold validateRoot at h
  cases hr : tree.inodes.get? rootId with
  | none =>
      rw [hr] at h
      cases h
  | some r =>
      rw [hr] at h
      simp only [Bool.and_eq_true, decide_eq_true_eq] at h
      exact ⟨r, rfl, h.1.1, h.1.2, h.2⟩

theorem forall_entries {K V : Type} [LinearOrder K] {m : OrdMap K V} {P : K → V → Prop} :
    (∀ e ∈ m.entries, P e.1 e.2) ↔ ∀ k v, m.get? k = some v → P k v := by
  constructor
  · intro h k v hk
    exact h (k, v) (OrdMap.get?_eq_some_iff.mp hk)
  · rintro h ⟨k, v⟩ he
    exact h k v (OrdMap.get?_eq_some_iff.mpr he)

/-- Entries that pass the walk resolve. -/
theorem resolves_of_inodeOk {tree : DirectoryTree} {dataOffset : Nat} {hideSize : Bool}
    (hall : ∀ id i, tree.inodes.get? id = some i → InodeOk tree dataOffset hideSize id i)
    {d c : FileId} {n : String} (he : tree.inodes.HasEntry d n c) :
    c ≠ rootId ∧ ∃ i, tree.inodes.get? c = some i := by
  obtain ⟨i, hi, hn⟩ := he
  have hok := (hall d i hi).entries (n, c) (OrdMap.get?_eq_some_iff.mp hn)
  exact ⟨hok.2.1, hok.2.2⟩

theorem validate_iff {tree : DirectoryTree} {dataOffset : Nat} {hideSize : Bool} :
    validateMetadataTree tree dataOffset hideSize = .ok () ↔ Valid tree dataOffset hideSize := by
  unfold validateMetadataTree
  cases hcnt : validateCounters tree dataOffset with
  | false =>
      refine ⟨nofun, fun h => ?_⟩
      rw [h.counters] at hcnt
      cases hcnt
  | true =>
      cases hroot : validateRoot tree with
      | false =>
          refine ⟨nofun, fun h => ?_⟩
          rw [h.root] at hroot
          cases hroot
      | true =>
          obtain ⟨r, hr, -⟩ := Valid.rootInode hroot
          simp only [Bool.not_true, Bool.false_eq_true, if_false, except_bind_eq_ok, walk_eq_ok,
            kidsOf_entries, refsOf_entries, forall_entries]
          constructor
          · rintro ⟨tally, ⟨hall, hdirs, hrefs, -, rfl⟩, hrest⟩
            split at hrest
            · cases hrest
            · next hcounts =>
                have hcounts : tree.inodes.entries.all
                    (validateCount (bump (fun _ => 0) tree.inodes.childIds)) = true := by
                  simpa using hcounts
                split at hrest
                · cases hrest
                · next reachable hcol =>
                    split at hrest
                    · cases hrest
                    · next hcard =>
                        obtain ⟨fr, hfr, -⟩ := except_bind_eq_ok.mp hrest
                        obtain ⟨hfree, hnd, -⟩ := validateFreeChunks_eq_ok.mp hfr
                        refine ⟨hcnt, hroot, hall, hdirs, hrefs, ?_, ?_, ?_, hnd⟩
                        · intro id i hi
                          exact List.all_eq_true.mp hcounts (id, i)
                            (OrdMap.get?_eq_some_iff.mp hi)
                        · exact (collect_card ⟨r, hr⟩ fun d n c he =>
                            (resolves_of_inodeOk hall he).2).mp ⟨reachable, hcol, not_not.mp hcard⟩
                        · intro id hid
                          obtain ⟨h1, h2, h3⟩ := hfree id hid
                          refine ⟨h1, fun hmem => h2 ?_, h3⟩
                          exact Finset.mem_union_right _ (List.mem_toFinset.mpr hmem)
          · intro hv
            have hcounts : tree.inodes.entries.all
                (validateCount (bump (fun _ => 0) tree.inodes.childIds)) = true :=
              List.all_eq_true.mpr (forall_entries.mpr hv.counts)
            obtain ⟨reachable, hcol, hcard⟩ := (collect_card ⟨r, hr⟩ fun d n c he =>
              (resolves_of_inodeOk hv.inodes he).2).mpr hv.reach
            refine ⟨_, ⟨hv.inodes, hv.dirs, hv.refs, fun _ _ => Finset.notMem_empty _, rfl⟩, ?_⟩
            simp only [hcounts, hcol, hcard, Bool.not_true, Bool.false_eq_true, if_false, ne_eq,
              not_true_eq_false]
            refine except_bind_eq_ok.mpr ⟨_, validateFreeChunks_eq_ok.mpr
              ⟨?_, hv.freeNodup, fun _ _ => Finset.notMem_empty _, rfl⟩, rfl⟩
            intro id hid
            obtain ⟨h1, h2, h3⟩ := hv.free id hid
            refine ⟨h1, fun hmem => h2 ?_, h3⟩
            rcases Finset.mem_union.mp hmem with hmem | hmem
            · exact absurd hmem (Finset.notMem_empty _)
            · exact List.mem_toFinset.mp hmem

/-! ## From an accepted tree to the invariants -/

theorem bump_zero {ids : List FileId} {x : FileId} :
    bump (fun _ => 0) ids x = min (ids.count x) u32Max := by
  unfold bump
  split
  · next h => simp [h]
  · rw [Nat.zero_add]

/-- The validator counts entries in a `u32` that saturates; below that bound it
counts them exactly. -/
def EntriesFit (t : DirectoryTree) : Prop := ∀ id, t.inodes.entryCount id ≤ u32Max

theorem Valid.entryCount_eq {tree : DirectoryTree} {dataOffset : Nat} {hideSize : Bool}
    (h : Valid tree dataOffset hideSize) (hfit : EntriesFit tree) {id : FileId} {i : Inode}
    (hid : id ≠ rootId) (hi : tree.inodes.get? id = some i) :
    tree.inodes.entryCount id = i.linkCount := by
  have hc := h.counts id i hi
  have hbump : bump (fun _ => 0) tree.inodes.childIds id = tree.inodes.entryCount id := by
    rw [bump_zero]
    exact Nat.min_eq_left (hfit id)
  unfold validateCount at hc
  simp only [hid, if_false, hbump] at hc
  have hlink := (h.inodes id i hi).link
  split at hc
  · cases hc
  · next hpos =>
      cases hk : i.kind with
      | file => simpa [hk] using hc
      | symlink =>
          have h1 : tree.inodes.entryCount id = 1 := by simpa [hk] using hc
          rw [h1, hlink (by rw [hk]; decide)]
      | directory =>
          have hmem : id ∈ tree.inodes.childIds := List.count_pos_iff.mp (Nat.pos_of_ne_zero hpos)
          have hone := h.dirs id hmem ⟨i, hi, hk⟩
          rw [hlink (by rw [hk]; decide)]
          unfold Inodes.entryCount at hpos ⊢
          omega

theorem Valid.nsInv {tree : DirectoryTree} {dataOffset : Nat} {hideSize : Bool}
    (h : Valid tree dataOffset hideSize) (hfit : EntriesFit tree) : NsInv tree.inodes where
  root := by
    obtain ⟨r, hr, -, -, hk⟩ := Valid.rootInode h.root
    exact ⟨r, hr, hk⟩
  ids := fun id i hi => (h.inodes id i hi).ident
  leaf := fun id i hi => (h.inodes id i hi).leaf
  resolve := fun _ _ _ he => resolves_of_inodeOk h.inodes he
  count := fun _ _ hid hi => h.entryCount_eq hfit hid hi
  single := fun id i hi => (h.inodes id i hi).link
  reach := h.reach

/-! ## Refusals -/

/-- The only error is `MetadataDeserialize`. -/
def Refuses {α : Type} (r : Except Failure α) : Prop :=
  ∀ e, r = .error e → e = .err .metadataDeserialize

section Refuses

variable {α β : Type}

theorem refuses_ok {a : α} : Refuses (.ok a) := nofun

theorem refuses_invalid : Refuses (invalidMetadata : Except Failure α) := by
  intro e h
  injection h with h
  exact h.symm

theorem refuses_bind {r : Except Failure α} {k : α → Except Failure β} (hr : Refuses r)
    (hk : ∀ a, Refuses (k a)) : Refuses (r >>= k) := by
  intro e h
  cases r with
  | error e' =>
      injection h with h
      exact h ▸ hr e' rfl
  | ok a => exact hk a e h

theorem refuses_ite {p : Prop} [Decidable p] {r r' : Except Failure α} (hr : Refuses r)
    (hr' : Refuses r') : Refuses (if p then r else r') := by
  split
  · exact hr
  · exact hr'

theorem refuses_foldlM {step : β → α → Except Failure β} (hstep : ∀ b a, Refuses (step b a))
    {l : List α} {b : β} : Refuses (l.foldlM step b) := by
  induction l generalizing b with
  | nil => exact refuses_ok
  | cons a l ih =>
      rw [List.foldlM_cons]
      exact refuses_bind (hstep b a) fun _ => ih

end Refuses

theorem validateChild_refuses {tree : DirectoryTree} {counts : FileId → Nat} {name : String}
    {id : FileId} : Refuses (validateChild tree counts name id) := by
  unfold validateChild
  refine refuses_ite refuses_invalid ?_
  split
  · exact refuses_invalid
  · exact refuses_ite refuses_invalid refuses_ok

theorem validateInode_refuses {tree : DirectoryTree} {dataOffset : Nat} {hideSize : Bool}
    {tally : Tally} {entry : FileId × Inode} :
    Refuses (validateInode tree dataOffset hideSize tally entry) := by
  have href : ∀ live (l : List ChunkRef), Refuses (l.foldlM (validateChunkRef tree dataOffset) live) :=
    fun live l => refuses_foldlM fun _ _ => refuses_ite refuses_invalid refuses_ok
  unfold validateInode
  refine refuses_ite refuses_invalid (refuses_ite refuses_invalid ?_)
  cases entry.2.kind with
  | directory =>
      refine refuses_ite refuses_invalid (refuses_ite refuses_invalid (refuses_ite refuses_invalid ?_))
      exact refuses_bind (refuses_foldlM fun _ _ => validateChild_refuses) fun _ => refuses_ok
  | symlink =>
      refine refuses_ite refuses_invalid ?_
      cases entry.2.symlinkTarget with
      | none => exact refuses_invalid
      | some target => exact refuses_ite refuses_ok refuses_invalid
  | file =>
      refine refuses_ite refuses_invalid (refuses_ite refuses_invalid (refuses_ite refuses_invalid
        (refuses_ite refuses_invalid (refuses_ite refuses_invalid ?_))))
      exact refuses_bind (href _ _) fun _ => refuses_bind (href _ _) fun _ => refuses_ok

theorem validate_refuses {tree : DirectoryTree} {dataOffset : Nat} {hideSize : Bool} :
    Refuses (validateMetadataTree tree dataOffset hideSize) := by
  unfold validateMetadataTree
  refine refuses_ite refuses_invalid (refuses_ite refuses_invalid ?_)
  refine refuses_bind (refuses_foldlM fun _ _ => validateInode_refuses) fun tally => ?_
  refine refuses_ite refuses_invalid ?_
  split
  · exact refuses_invalid
  · refine refuses_ite refuses_invalid ?_
    refine refuses_bind (refuses_foldlM fun _ _ => ?_) fun _ => refuses_ok
    exact refuses_ite refuses_invalid refuses_ok

end Luksbox
