import Luksbox.Proofs.Sizes
import Luksbox.Proofs.WritePath

/-!
# The calls on files

`write` and `truncate` from their first check to the inode they leave. Before a
call works on chunks it looks the size up and, if many slots are waiting, it
flushes; `Begun` says where this leaves it. At the end the inode gets the
refs the view holds, and the slots they replace are given back (`replaced`).
A call that fails has taken a path and nothing more.
-/

namespace Luksbox

open Lib Relation

namespace Vfs

variable {P : Permit} {p : Plan} {f : FileId} {c : Cfg} {s : Vfs}

/-! ## Sizes -/

theorem cache_runs {n : Nat} {i : Inode} {Q : Nat → Cfg → Prop} {E : Failure → Cfg → Prop}
    (hi : c.vfs.tree.inodes.get? f = some i) (hsize : c.vfs.sizeOf f = some n)
    (hQ : (c.vfs.mapInode f fun i => { i with cachedRealSize := some n }).sizeOf f = some n →
      Q n ⟨c.flight, c.broken, c.vfs.mapInode f fun i => { i with cachedRealSize := some n }⟩) :
    Runs P f c (do
      updateInode f fun inode => { inode with cachedRealSize := some n }
      pure n) Q E := by
  refine runs_bind (runs_of_wp ?_)
  rw [wp_updateInode]
  refine ⟨fun _ _ => ⟨⟨c.flight, c.broken, _⟩, rfl, ReflTransGen.single (Micro.cache n hsize),
    runs_pure (hQ (sizeOf_cached hsize))⟩, fun hnone => ?_⟩
  rw [hi] at hnone
  cases hnone

/-- What a lookup of the size leaves alone. -/
structure SizeKept (c c' : Cfg) : Prop where
  flight : c'.flight = c.flight
  broken : c'.broken = c.broken
  calm : Calm c c'
  slots : c'.vfs.container.slots = c.vfs.container.slots

theorem SizeKept.refl : SizeKept c c := ⟨rfl, rfl, Calm.refl, rfl⟩

theorem realSize_runs :
    Runs P f c (realSize f)
      (fun n c' => c.vfs.sizeOf f = some n ∧ c'.vfs.sizeOf f = some n ∧ SizeKept c c')
      (fun e _ => e ≠ .panic) := by
  unfold realSize
  cases hi : c.vfs.tree.inodes.get? f with
  | none =>
      refine runs_bind (runs_of_wp ?_)
      rw [wp_inodeOr]
      refine ⟨fun i hi' => ?_, fun _ => ⟨c, rfl, ReflTransGen.refl, nofun⟩⟩
      rw [hi] at hi'
      cases hi'
  | some i =>
      refine runs_bind (inodeOr_runs hi ?_)
      refine runs_get ?_
      have hsize : c.vfs.sizeOf f = c.vfs.inodeSize f i := by
        unfold sizeOf
        rw [hi]
        rfl
      unfold inodeSize at hsize
      refine runs_ite (fun hkind => ?_) fun hkind => ?_
      · rw [if_pos hkind] at hsize
        exact runs_pure ⟨hsize, hsize, SizeKept.refl⟩
      rw [if_neg hkind] at hsize
      refine runs_ite (fun hhide => ?_) fun hhide => ?_
      · rw [if_pos hhide] at hsize
        exact runs_pure ⟨hsize, hsize, SizeKept.refl⟩
      rw [if_neg hhide] at hsize
      cases hcache : i.cachedRealSize with
      | some n =>
          rw [hcache] at hsize
          exact runs_pure ⟨hsize, hsize, SizeKept.refl⟩
      | none =>
          rw [hcache] at hsize
          have hsize : c.vfs.sizeOf f = c.vfs.headerSize f i := hsize
          unfold headerSize at hsize
          cases hchunks : i.chunks with
          | nil =>
              rw [hchunks] at hsize
              exact cache_runs hi hsize fun hcached => ⟨hsize, hcached, rfl, rfl,
                ⟨rfl, rfl, rfl, rfl, rfl, le_refl _, fun _ => le_refl _⟩, rfl⟩
          | cons chunk0 rest =>
              refine runs_bind (runs_mono readChunk_runs ?_ fun e _ _ he => he.1.1)
              rintro pt c₁ hp ⟨hst, hsl, hpt⟩
              have hpt : c.vfs.opens f 0 chunk0 = some pt := hpt
              rw [hchunks] at hsize
              simp only [hpt, Option.bind_some] at hsize
              generalize sizeHeaderOf pt = n at hsize
              generalize (chunk0 :: rest).length * chunkPlaintextSize = capacity at hsize
              simp only
              refine runs_ite (fun _ => runs_throw nofun) fun hcap => ?_
              refine runs_ite (fun _ => runs_throw nofun) fun hfit => ?_
              rw [if_neg (by omega)] at hsize
              obtain ⟨i₁, hi₁, hbare⟩ := (Path.frame hp).inode hi
              have hsize₁ : c₁.vfs.sizeOf f = some n := by
                have hin : c₁.vfs.tree.inodes.get? f = some i := by
                  rw [hst.still.inodes]
                  exact hi
                rw [← hsize]
                unfold sizeOf inodeSize headerSize opens
                rw [hin, hi, hsl, (Path.frame hp).hideSize, (Path.frame hp).fileKey]
              have hcalm : Calm c c₁ := Calm.of_steady hst (Path.frame hp).maxVaultSize
              exact cache_runs hi₁ hsize₁ fun hcached => ⟨hsize, hcached, hst.flight, hst.broken,
                hcalm.trans ⟨rfl, rfl, rfl, rfl, rfl, le_refl _, fun _ => le_refl _⟩, hsl⟩

/-! ## The inode at the end -/

/-- The inode of `f` has got new refs, and `freed` is waiting for the next
flush. -/
def replaced (s : Vfs) (f : FileId) (chunks : List ChunkRef) (newReal : Nat)
    (freed : List ChunkId) : Vfs :=
  { s.mapInode f (fun inode => { inode with
      chunks := chunks
      size := if s.hideSize then chunks.length * chunkPlaintextSize else newReal
      cachedRealSize := if s.hideSize then some newReal else inode.cachedRealSize
      mtimeNs := s.container.env.nowNs }) with
    dirty := true
    chunksDirty := insert f s.chunksDirty
    pendingFree := s.pendingFree ++ freed }

theorem commitInode_spec {chunks : List ChunkRef} {newReal : Nat} {freed : List ChunkId} {i : Inode}
    (hi : s.tree.inodes.get? f = some i) :
    wp (commitInode f chunks newReal s.hideSize freed)
      (fun _ s' => s' = s.replaced f chunks newReal freed)
      (fun e s' => s' = s ∧ (chunks.length * chunkPlaintextSize ≤ u64Max → e ≠ .panic)) s := by
  unfold commitInode
  rw [wp_bind, wp_fromExcept]
  refine ⟨fun size hsize => ?_, fun e he => ⟨rfl, fun hfits => ?_⟩⟩
  · have hsize : size = if s.hideSize then chunks.length * chunkPlaintextSize else newReal := by
      split at hsize
      · unfold mulU at hsize
        split at hsize
        · cases hsize
        · injection hsize with hsize
          rw [if_pos ‹_›, hsize]
      · injection hsize with hsize
        rw [if_neg ‹_›, hsize]
    rw [wp_bind, wp_nowNs, wp_bind, wp_updateInode, hsize]
    refine ⟨fun _ _ => ?_, fun hnone => ?_⟩
    · rw [wp_modify]
      rfl
    · rw [hi] at hnone
      cases hnone
  · split at he
    · unfold mulU at he
      split at he
      · omega
      · cases he
    · cases he

/-! ## Entering a call -/

/-- The pre-flight says the same of both states. -/
def SameBudget (s s' : Vfs) : Prop :=
  ∀ g n, s'.checkMetadataBudgetForChunks g n = s.checkMetadataBudgetForChunks g n

/-- The recorded length of a file takes no place in the metadata. -/
theorem sameBudget_cached {g : FileId} {size : Nat} :
    SameBudget s (s.mapInode g fun i => { i with cachedRealSize := some size }) := by
  intro h n
  have hproject : (s.tree.inodes.adjust g fun i => { i with cachedRealSize := some size }).mapWithKey
      (fun k i => projectInode s.format (if k = h then n else 0) i) =
      s.tree.inodes.mapWithKey fun k i => projectInode s.format (if k = h then n else 0) i := by
    apply OrdMap.ext_get?
    intro k
    rw [OrdMap.get?_mapWithKey, OrdMap.get?_mapWithKey, OrdMap.get?_adjust]
    by_cases hk : k = g
    · rw [if_pos hk]
      cases s.tree.inodes.get? k with
      | none => rfl
      | some i => rfl
    · rw [if_neg hk]
  have hspilled : (s.mapInode g fun i => { i with cachedRealSize := some size }).tree.toV3OnDisk
      ((s.mapInode g fun i => { i with cachedRealSize := some size }).tree.inodes.mapWithKey
        fun k i => projectInode s.format (if k = h then n else 0) i) =
      s.tree.toV3OnDisk (s.tree.inodes.mapWithKey
        fun k i => projectInode s.format (if k = h then n else 0) i) :=
    congrArg s.tree.toV3OnDisk hproject
  have hentries : ((s.tree.inodes.adjust g fun i => { i with cachedRealSize := some size }).entries.map
      fun p => Postcard.varintLen p.1 + Postcard.inodeLen p.2) =
      s.tree.inodes.entries.map fun p => Postcard.varintLen p.1 + Postcard.inodeLen p.2 := by
    rw [OrdMap.adjust_eq_mapWithKey]
    refine (List.map_map).trans (List.map_congr_left fun p _ => ?_)
    show Postcard.varintLen p.1 + Postcard.inodeLen (if p.1 = g then _ else p.2) = _
    split <;> rfl
  have hplain : Postcard.treeLen (s.mapInode g fun i => { i with cachedRealSize := some size }).tree =
      Postcard.treeLen s.tree := by
    have hlen := congrArg List.length hentries
    rw [List.length_map, List.length_map] at hlen
    have hsum := congrArg List.sum hentries
    unfold Postcard.treeLen Postcard.seqLen
    exact congrArg (Postcard.treeHeadLen _ _ _ _ _ + ·)
      (congrArg₂ (· + ·) (congrArg Postcard.varintLen hlen) hsum)
  have hformat : (s.mapInode g fun i => { i with cachedRealSize := some size }).format = s.format :=
    rfl
  unfold checkMetadataBudgetForChunks
  simp only [hformat, hspilled, hplain]
  rfl

/-- Looking the size up changes nothing the pre-flight depends on. -/
theorem realSize_budget :
    wp (realSize f) (fun _ s' => SameBudget s s') (fun _ _ => True) s := by
  unfold realSize
  rw [wp_bind, wp_inodeOr]
  refine ⟨fun i _ => ?_, fun _ => trivial⟩
  rw [wp_bind, wp_get]
  split
  · exact fun _ _ => rfl
  split
  · exact fun _ _ => rfl
  split
  · exact fun _ _ => rfl
  split
  · rw [wp_bind, wp_updateInode]
    exact ⟨fun _ _ => sameBudget_cached, fun _ => trivial⟩
  · rw [wp_bind]
    unfold readChunk
    rw [wp_bind, wp_get, wp_onContainer]
    refine Container.readChunk_spec (fun io pt _ => ?_) (fun _ _ => trivial) fun _ _ _ => trivial
    simp only [wp_ite, wp_throw, wp_bind, wp_updateInode, wp_pure]
    exact ⟨fun _ => trivial, fun _ => ⟨fun _ => trivial, fun _ => ⟨fun _ _ =>
      @sameBudget_cached { s with container := s.container.withIo io } _ _, fun _ => trivial⟩⟩⟩

/-- Where a call is once it knows the size of its file. -/
structure Begun (P : Permit) (f : FileId) (s : Vfs) (c₀ : Cfg) (oldReal : Nat) : Prop where
  path : Path P f ⟨[], [], s⟩ c₀
  flight : c₀.flight = []
  broken : c₀.broken = []
  writable : s.toleratedInodes = []
  size : s.sizeOf f = some oldReal
  sizeNow : c₀.vfs.sizeOf f = some oldReal
  how : (Calm ⟨[], [], s⟩ c₀ ∧ c₀.vfs.container.slots = s.container.slots ∧
      SameBudget s c₀.vfs) ∨
    (pendingFreeFlushThreshold ≤ s.pendingFree.length ∧ s.commits ∧ c₀.vfs.pendingFree = [] ∧
      s.pendingFree.length ≤ c₀.vfs.room)

/-- Looking the size up from the start of the call. -/
theorem begun_runs (htol : s.toleratedInodes = []) :
    Runs P f ⟨[], [], s⟩ (realSize f) (fun n c₀ => Begun P f s c₀ n ∧ Calm ⟨[], [], s⟩ c₀)
      (fun e _ => e ≠ .panic) := by
  refine runs_mono (runs_and_wp realSize_runs realSize_budget) ?_ fun _ _ _ he => he.1
  rintro n c₀ hp ⟨⟨hsize, hnow, hkept⟩, hbudget⟩
  exact ⟨⟨hp, hkept.flight, hkept.broken, htol, hsize, hnow,
    Or.inl ⟨hkept.calm, hkept.slots, hbudget⟩⟩, hkept.calm⟩

/-- And after the flush that empties a long list of waiting slots. -/
theorem begun_flush_runs (htol : s.toleratedInodes = []) (hl : Ledger ⟨[], [], s⟩)
    (hmany : pendingFreeFlushThreshold ≤ s.pendingFree.length) :
    Runs P f ⟨[], [], s⟩ (do flush; realSize f)
      (fun n c₀ => Begun P f s c₀ n ∧ (s.commits → c₀.vfs.pendingFree = []))
      (fun e _ => e ≠ .panic) := by
  refine runs_bind (runs_mono (runs_and_wp (runs_and_wp (flush_keeps fun _ => Or.inl rfl)
    (@flush_sizeOf s hl f)) flush_supplies) ?_ fun e _ _ he => he.1.1.1.1)
  rintro _ c₁ hp ⟨⟨⟨hf, hb, hmode⟩, hsame⟩, hsupply⟩
  have hc₁ : c₁ = ⟨[], [], c₁.vfs⟩ := by
    obtain ⟨L, B, v⟩ := c₁
    simp only at hf hb
    rw [hf, hb]
  refine runs_mono (runs_and_wp realSize_runs realSize_budget) ?_ fun _ _ _ he => he.1
  rintro n c₀ hp₀ ⟨⟨hsize, hnow, hkept⟩, hbudget⟩
  rcases hmode with ⟨hno, hv⟩ | ⟨hcom, hpend⟩
  · have hcfg : c₁ = ⟨[], [], s⟩ := by rw [hc₁, hv]
    refine ⟨⟨hp.trans hp₀, hkept.flight.trans hf, hkept.broken.trans hb, htol,
      hsame.symm.trans hsize, hnow, ?_⟩, fun hcom => absurd hcom hno⟩
    rw [hcfg] at hkept hbudget
    exact Or.inl ⟨hkept.calm, hkept.slots, hbudget⟩
  · have hnone : c₀.vfs.pendingFree = [] := by rw [hkept.calm.pending, hpend]
    have hroom : s.pendingFree.length ≤ c₀.vfs.room := by
      have hfree := (hsupply hcom).free
      have hcalm := hkept.calm.room
      rw [hkept.flight, hf] at hcalm
      simp only [List.length_nil] at hcalm
      have hle : c₁.vfs.tree.freeChunks.length ≤ c₁.vfs.room := Nat.le_add_right _ _
      have hfree : s.pendingFree.length ≤ c₁.vfs.tree.freeChunks.length := hfree
      omega
    exact ⟨⟨hp.trans hp₀, hkept.flight.trans hf, hkept.broken.trans hb, htol,
      hsame.symm.trans hsize, hnow, Or.inr ⟨hmany, hcom, hnone, hroom⟩⟩, fun _ => hnone⟩

/-! ## Chunk counts -/

theorem paddedChunkCount_le {needed k : Nat} {padding : Bool} (h : needed ≤ 2 ^ k) (hk : k ≤ 63) :
    ∃ n, paddedChunkCount needed padding = .ok n ∧ needed ≤ n ∧ n ≤ 2 ^ k := by
  unfold paddedChunkCount
  by_cases hplain : padding = false ∨ needed ≤ 1
  · rw [if_pos hplain]
    exact ⟨needed, rfl, le_refl _, h⟩
  · rw [if_neg hplain]
    have hone : ¬ needed ≤ 1 := fun hle => hplain (Or.inr hle)
    have hnext : nextPowerOfTwo needed = 2 ^ (Nat.log2 (needed - 1) + 1) := by
      unfold nextPowerOfTwo
      rw [if_neg hone]
    have hlt := @Nat.lt_log2_self (needed - 1)
    have hlog : Nat.log2 (needed - 1) < k := by
      rw [Nat.log2_lt (by omega)]
      omega
    have hle : nextPowerOfTwo needed ≤ 2 ^ k := by
      rw [hnext]
      exact Nat.pow_le_pow_right (by decide) hlog
    have hcap : (2 : Nat) ^ k ≤ 2 ^ 63 := Nat.pow_le_pow_right (by decide) hk
    rw [if_neg (by omega)]
    exact ⟨_, rfl, by omega, hle⟩

theorem requiredChunks_mono {a b : Nat} {hide : Bool} (h : a ≤ b) :
    requiredChunks a hide ≤ requiredChunks b hide := by
  unfold requiredChunks
  by_cases ha : a = 0
  · rw [if_pos ha]
    exact Nat.zero_le _
  · have hb : ¬ b = 0 := by omega
    rw [if_neg ha, if_neg hb]
    refine Nat.succ_le_succ (Nat.div_le_div_right (Nat.sub_le_sub_right ?_ 1))
    cases hide with
    | false => exact h
    | true =>
        simp only [if_true]
        omega

theorem requiredChunks_maxFileSize {n : Nat} {hide : Bool} (h : n ≤ maxFileSize) :
    requiredChunks n hide ≤ 2 ^ 33 := by
  refine (requiredChunks_mono h).trans ?_
  cases hide <;> decide

/-- The last byte of a file is in one of its chunks. -/
theorem lastChunk_lt {n : Nat} {hide : Bool} (hpos : 0 < n) (h : n ≤ maxFileSize) :
    (n - 1 + headerLen hide) / chunkPlaintextSize < requiredChunks n hide := by
  unfold requiredChunks
  rw [if_neg (by omega)]
  refine Nat.lt_succ_of_le (Nat.div_le_div_right ?_)
  have hmax : maxFileSize + sizeHeaderLen ≤ u64Max := by decide
  unfold headerLen
  cases hide with
  | false =>
      simp only [Bool.false_eq_true, if_false]
      omega
  | true =>
      simp only [if_true]
      omega

/-! ## Truncate -/

/-- What `truncate` has done when it returns. -/
structure Truncated (p : Plan) (f : FileId) (s : Vfs) (newSize : Nat) (c₀ : Cfg) (oldReal : Nat)
    (i : Inode) (count : Nat) (c : Cfg) (refs : List ChunkRef) (retired : List ChunkId)
    (s' : Vfs) : Prop where
  begun : Begun p.permit f s c₀ oldReal
  inode : c₀.vfs.tree.inodes.get? f = some i
  file : i.kind = .file
  small : newSize ≤ maxFileSize
  count_eq : paddedChunkCount (requiredChunks newSize s.hideSize) s.paddingOn = .ok count
  length : refs.length = count
  sees : Sees p f c₀ (i.chunks.take count) c refs retired
    (truncated oldReal newSize count s.hideSize (i.chunks.take count).length
      (contentAt f c₀ (i.chunks.take count) fun _ => none))
  final : s' = c.vfs.replaced f refs newSize
    ((i.chunks.drop count).reverse.map ChunkRef.id ++ retired)

/-- What is granted to a `truncate` once it has begun. -/
def MayTruncate (p : Plan) (f : FileId) (s : Vfs) (newSize : Nat) : Prop :=
  ∀ c₀ oldReal i count, Begun p.permit f s c₀ oldReal → Calm ⟨[], [], s⟩ c₀ →
    c₀.vfs.tree.inodes.get? f = some i → i.kind = .file → newSize ≤ maxFileSize →
    paddedChunkCount (requiredChunks newSize s.hideSize) s.paddingOn = .ok count →
    ((i.chunks.take count).length < count →
      c₀.vfs.checkMetadataBudgetForChunks f (count - (i.chunks.take count).length) = .ok ()) →
    TruncateGrants p c₀ (i.chunks.take count) oldReal newSize count s.hideSize

theorem Begun.ledger {c₀ : Cfg} {n : Nat} (h : Begun P f s c₀ n) (hl : Ledger ⟨[], [], s⟩) :
    Ledger c₀ := hl.path h.path

theorem Begun.base {c₀ : Cfg} {n count : Nat} {i : Inode} (h : Begun P f s c₀ n)
    (hl : Ledger ⟨[], [], s⟩) (hi : c₀.vfs.tree.inodes.get? f = some i) :
    Base f c₀ (i.chunks.take count) where
  ledger := h.ledger hl
  flight := h.flight
  broken := h.broken
  refs := ⟨i, hi, fun x => ((List.take_sublist _ _).map _).count_le x⟩

theorem checkBudget_error {count : Nat} {e : Failure}
    (h : s.checkMetadataBudgetForChunks f count = .error e) : e ≠ .panic := by
  unfold checkMetadataBudgetForChunks at h
  simp only at h
  split at h
  · split at h
    · injection h with h
      rw [← h]
      exact nofun
    · cases h
  · split at h
    · injection h with h
      rw [← h]
      exact nofun
    · cases h

/-- The end of a call: the inode gets its refs. -/
theorem commit_spec {c₀ c : Cfg} {chunks : List ChunkRef} {newReal : Nat} {freed : List ChunkId}
    {i : Inode} {Q : Unit → Vfs → Prop} {E : Failure → Vfs → Prop}
    (hi : c₀.vfs.tree.inodes.get? f = some i) (hf : Frame c₀.vfs c.vfs)
    (hQ : Q () (c.vfs.replaced f chunks newReal freed))
    (hE : ∀ e, (chunks.length * chunkPlaintextSize ≤ u64Max → e ≠ .panic) → E e c.vfs) :
    wp (commitInode f chunks newReal c₀.vfs.hideSize freed) Q E c.vfs := by
  obtain ⟨i', hi', -⟩ := hf.inode hi
  rw [← hf.hideSize]
  refine wp_mono (commitInode_spec hi') ?_ ?_
  · rintro _ s' rfl
    exact hQ
  · rintro e s' ⟨rfl, he⟩
    exact hE e he

theorem truncate_spec {newSize : Nat} (hl : Ledger ⟨[], [], s⟩) (hg : MayTruncate p f s newSize) :
    wp (truncate f newSize)
      (fun _ s' => ∃ c₀ oldReal i count c refs retired,
        Truncated p f s newSize c₀ oldReal i count c refs retired s')
      (fun e s' => e ≠ .panic ∧ ∃ c, Path p.permit f ⟨[], [], s⟩ c ∧ c.vfs = s') s := by
  unfold truncate
  rw [wp_bind, wp_ensureWritable]
  refine ⟨fun _ => ⟨nofun, _, ReflTransGen.refl, rfl⟩, fun htol => ?_⟩
  rw [wp_ite]
  refine ⟨fun _ => ⟨nofun, _, ReflTransGen.refl, rfl⟩, fun hsmall => ?_⟩
  have hsmall : newSize ≤ maxFileSize := Nat.not_lt.mp hsmall
  rw [wp_bind]
  have hbegin := @begun_runs p.permit f s htol
  unfold Runs runs at hbegin
  refine wp_mono hbegin ?_ ?_
  · rintro oldReal _ ⟨c₀, rfl, -, hbegun, hcalm⟩
    rw [wp_bind, wp_inodeOr]
    refine ⟨fun i hi => ?_, fun _ => ⟨nofun, c₀, hbegun.path, rfl⟩⟩
    rw [wp_ite]
    refine ⟨fun _ => ⟨nofun, c₀, hbegun.path, rfl⟩, fun hkind => ?_⟩
    have hkind : i.kind = .file := not_not.mp hkind
    rw [wp_bind, wp_get]
    have hframe := Path.frame hbegun.path
    obtain ⟨count, hcount, -, hle⟩ := @paddedChunkCount_le
      (requiredChunks newSize c₀.vfs.hideSize) 33 c₀.vfs.paddingOn
      (requiredChunks_maxFileSize hsmall) (by decide)
    rw [hcount, wp_bind, wp_fromExcept_ok]
    have hcount : paddedChunkCount (requiredChunks newSize s.hideSize) s.paddingOn = .ok count := by
      rw [hframe.hideSize, hframe.paddingOn] at hcount
      exact hcount
    have hhide : c₀.vfs.hideSize = s.hideSize := hframe.hideSize
    have hlen : (i.chunks.take count).length + (count - (i.chunks.take count).length) = count := by
      rw [List.length_take]
      omega
    have hmax : u64Max = 2 ^ 64 - 1 := rfl
    have hchunk : chunkPlaintextSize = 4096 := rfl
    have hbase := @Begun.base p.permit f s c₀ oldReal count i hbegun hl hi
    -- the data path and the commit
    have hrest : ((i.chunks.take count).length < count → c₀.vfs.checkMetadataBudgetForChunks f
          (count - (i.chunks.take count).length) = .ok ()) → wp
        (truncateData f oldReal newSize count c₀.vfs.hideSize (i.chunks.take count) >>= fun out =>
          commitInode f out.1 newSize c₀.vfs.hideSize
            ((i.chunks.drop count).reverse.map ChunkRef.id ++ out.2))
        (fun _ s' => ∃ c₀ oldReal i count c refs retired,
          Truncated p f s newSize c₀ oldReal i count c refs retired s')
        (fun e s' => e ≠ .panic ∧ ∃ c, Path p.permit f ⟨[], [], s⟩ c ∧ c.vfs = s') c₀.vfs := by
      intro hbudget
      have hdata := truncateData_runs hbase (hg c₀ oldReal i count hbegun hcalm hi hkind
        hsmall hcount hbudget)
      rw [wp_bind, hhide]
      unfold Runs runs at hdata
      refine wp_mono hdata ?_ ?_
      · rintro ⟨refs, retired⟩ _ ⟨c, rfl, hp, hrefs, hsees⟩
        simp only at hrefs hsees ⊢
        rw [← hhide]
        refine commit_spec hi (Path.frame hp) ?_ ?_
        · exact ⟨c₀, oldReal, i, count, c, refs, retired, hbegun, hi, hkind, hsmall, hcount,
            hrefs.trans hlen, hsees, rfl⟩
        · intro e he
          refine ⟨he ?_, c, hbegun.path.trans hp, rfl⟩
          rw [hrefs, hlen, hchunk]
          omega
      · rintro e _ ⟨c, rfl, hp, he⟩
        exact ⟨he (by rw [List.length_take]; omega), c, hbegun.path.trans hp, rfl⟩
    simp only
    rw [wp_ite]
    refine ⟨fun _ => ?_, fun hno => hrest fun hgrow => absurd hgrow hno⟩
    rw [wp_bind, wp_fromExcept]
    exact ⟨fun _ hok => hrest fun _ => hok,
      fun e he => ⟨checkBudget_error he, c₀, hbegun.path, rfl⟩⟩
  · rintro e _ ⟨c, rfl, hp, he⟩
    exact ⟨he, c, hp, rfl⟩

/-! ## Write -/

/-- What a call of `write` works with. -/
def argsOf (f : FileId) (offset : Nat) (buf : List UInt8) (oldReal curLen : Nat) (hide : Bool) :
    WriteArgs where
  id := f
  offset := offset
  buf := buf
  newEnd := offset + buf.length
  oldReal := oldReal
  newReal := max oldReal (offset + buf.length)
  curLen := curLen
  firstChunk := (offset + headerLen hide) / chunkPlaintextSize
  hideSize := hide

/-- The chunk of the last byte written. -/
def lastOf (offset : Nat) (buf : List UInt8) (hide : Bool) : Nat :=
  (offset + buf.length - 1 + headerLen hide) / chunkPlaintextSize

/-- What `write` has done when it returns. -/
structure Written (p : Plan) (f : FileId) (s : Vfs) (offset : Nat) (buf : List UInt8) (c₀ : Cfg)
    (oldReal : Nat) (i : Inode) (count : Nat) (c : Cfg) (refs : List ChunkRef)
    (retired : List ChunkId) (s' : Vfs) : Prop where
  begun : Begun p.permit f s c₀ oldReal
  inode : c₀.vfs.tree.inodes.get? f = some i
  file : i.kind = .file
  nonempty : buf ≠ []
  small : offset + buf.length ≤ maxFileSize
  count_eq : paddedChunkCount (requiredChunks (max oldReal (offset + buf.length)) s.hideSize)
    s.paddingOn = .ok count
  length : refs.length = max i.chunks.length count
  sees : Sees p f c₀ i.chunks c refs retired
    (written (argsOf f offset buf oldReal i.chunks.length s.hideSize) count
      (lastOf offset buf s.hideSize) (contentAt f c₀ i.chunks fun _ => none))
  final : s' = c.vfs.replaced f refs (max oldReal (offset + buf.length)) retired

/-- A long list of waiting slots has been emptied before. -/
def Emptied (s : Vfs) (c₀ : Cfg) : Prop :=
  pendingFreeFlushThreshold ≤ s.pendingFree.length → s.commits → c₀.vfs.pendingFree = []

/-- What is granted to a `write` once it has begun. -/
def MayWrite (p : Plan) (f : FileId) (s : Vfs) (offset : Nat) (buf : List UInt8) : Prop :=
  ∀ c₀ oldReal i count, Begun p.permit f s c₀ oldReal → Emptied s c₀ →
    c₀.vfs.tree.inodes.get? f = some i → i.kind = .file → buf ≠ [] → offset + buf.length ≤ maxFileSize →
    paddedChunkCount (requiredChunks (max oldReal (offset + buf.length)) s.hideSize)
      s.paddingOn = .ok count →
    (i.chunks.length < count →
      c₀.vfs.checkMetadataBudgetForChunks f (count - i.chunks.length) = .ok ()) →
    WriteGrants p c₀ i.chunks (argsOf f offset buf oldReal i.chunks.length s.hideSize) count
      (lastOf offset buf s.hideSize)

/-- The file is not so large that its chunk count or its size in bytes would
overflow. -/
def Bounded (s : Vfs) (f : FileId) : Prop :=
  ∀ i, s.tree.inodes.get? f = some i → i.chunks.length ≤ 2 ^ 51 ∧
    ∀ n, s.sizeOf f = some n → requiredChunks n s.hideSize ≤ 2 ^ 51

theorem argsOf_fits {offset oldReal curLen : Nat} {buf : List UInt8} {hide : Bool}
    (hne : buf ≠ []) (hsmall : offset + buf.length ≤ maxFileSize) :
    (argsOf f offset buf oldReal curLen hide).Fits (lastOf offset buf hide) where
  newEnd := rfl
  some := hne
  bound := hsmall.trans (by decide)
  first := rfl
  last := rfl

theorem lastOf_lt {offset oldReal count : Nat} {buf : List UInt8} {hide padding : Bool}
    (hne : buf ≠ []) (hsmall : offset + buf.length ≤ maxFileSize)
    (hcount : paddedChunkCount (requiredChunks (max oldReal (offset + buf.length)) hide) padding =
      .ok count) : lastOf offset buf hide < count := by
  have hpos := List.length_pos_iff.mpr hne
  have hlast := @lastChunk_lt (offset + buf.length) hide (by omega) hsmall
  have hmono := @requiredChunks_mono (offset + buf.length) (max oldReal (offset + buf.length)) hide
    (le_max_right _ _)
  have hle : requiredChunks (max oldReal (offset + buf.length)) hide ≤ count := by
    unfold paddedChunkCount at hcount
    split at hcount
    · injection hcount with hcount
      exact le_of_eq hcount
    · next hno =>
        split at hcount
        · cases hcount
        · injection hcount with hcount
          rw [← hcount]
          unfold nextPowerOfTwo
          rw [if_neg (fun h => hno (Or.inr h))]
          have := @Nat.lt_log2_self (requiredChunks (max oldReal (offset + buf.length)) hide - 1)
          omega
  unfold lastOf
  omega

/-- The chunk count of a bounded file stays in range. -/
theorem Begun.count_le {c₀ : Cfg} {oldReal newEnd : Nat} {i : Inode} (h : Begun P f s c₀ oldReal)
    (hi : c₀.vfs.tree.inodes.get? f = some i) (hb : Bounded s f) (hsmall : newEnd ≤ maxFileSize) :
    i.chunks.length ≤ 2 ^ 51 ∧
      ∃ count, paddedChunkCount (requiredChunks (max oldReal newEnd) s.hideSize) s.paddingOn =
        .ok count ∧ count ≤ 2 ^ 51 := by
  obtain ⟨i₀, hi₀, hbare⟩ := (Path.frame h.path).inode_back hi
  obtain ⟨hlen, hsize⟩ := hb i₀ hi₀
  have hneed : requiredChunks (max oldReal newEnd) s.hideSize ≤ 2 ^ 51 := by
    rcases Nat.le_total newEnd oldReal with hle | hle
    · rw [Nat.max_eq_left hle]
      exact hsize _ h.size
    · rw [Nat.max_eq_right hle]
      exact (requiredChunks_maxFileSize hsmall).trans (by decide)
  obtain ⟨count, hok, -, hle⟩ := @paddedChunkCount_le _ 51 s.paddingOn hneed (by decide)
  exact ⟨by rw [Inode.bare_chunks hbare]; exact hlen, count, hok, hle⟩

theorem writeSized_spec {offset : Nat} {buf : List UInt8} {c₀ : Cfg} {oldReal : Nat}
    (hl : Ledger ⟨[], [], s⟩) (hg : MayWrite p f s offset buf) (hne : buf ≠ [])
    (hbegun : Begun p.permit f s c₀ oldReal) (hempty : Emptied s c₀) :
    wp (writeSized f offset buf oldReal)
      (fun n s' => n = buf.length ∧ ∃ c₀ oldReal i count c refs retired,
        Written p f s offset buf c₀ oldReal i count c refs retired s')
      (fun e s' => (Bounded s f → e ≠ .panic) ∧
        ∃ c, Path p.permit f ⟨[], [], s⟩ c ∧ c.vfs = s') c₀.vfs := by
  have hstop : ∀ {e : Failure}, e ≠ .panic → (Bounded s f → e ≠ .panic) ∧
      ∃ c, Path p.permit f ⟨[], [], s⟩ c ∧ c.vfs = c₀.vfs :=
    fun he => ⟨fun _ => he, c₀, hbegun.path, rfl⟩
  have hframe := Path.frame hbegun.path
  have hpos := List.length_pos_iff.mpr hne
  unfold writeSized
  rw [wp_bind, wp_inodeOr]
  refine ⟨fun i hi => ?_, fun _ => hstop nofun⟩
  rw [wp_ite]
  refine ⟨fun _ => hstop nofun, fun hkind => ?_⟩
  have hkind : i.kind = .file := not_not.mp hkind
  rw [wp_ite]
  refine ⟨fun _ => hstop nofun, fun _ => ?_⟩
  rw [wp_ite]
  refine ⟨fun _ => hstop nofun, fun hsmall => ?_⟩
  have hsmall : offset + buf.length ≤ maxFileSize := Nat.not_lt.mp hsmall
  simp only
  rw [wp_bind, wp_get, wp_bind, wp_fromExcept, hframe.hideSize, hframe.paddingOn]
  refine ⟨fun count hcount => ?_, fun e he => ⟨fun hb => ?_, c₀, hbegun.path, rfl⟩⟩
  · have hlt := lastOf_lt hne hsmall hcount
    rw [wp_bind, wp_fromExcept]
    refine ⟨fun first hfirst => ?_, fun e he => hstop (by rw [fileToChunk_error he]; exact nofun)⟩
    obtain ⟨rfl, -⟩ := fileToChunk_eq_ok hfirst
    simp only
    rw [wp_bind, subU_of_le (by omega), wp_fromExcept_ok, wp_bind, wp_fromExcept]
    refine ⟨fun last hlast => ?_, fun e he => hstop (by rw [fileToChunk_error he]; exact nofun)⟩
    obtain ⟨rfl, hbound⟩ := fileToChunk_eq_ok hlast
    simp only
    have hlast : lastOf offset buf s.hideSize < u64Max := by
      refine lt_of_lt_of_le (Nat.lt_of_le_of_lt (Nat.div_le_self _ _) ?_) (le_refl _)
      have hmax : maxFileSize + sizeHeaderLen < u64Max := by decide
      have := @headerLen_le s.hideSize
      omega
    have hbase : Base f c₀ i.chunks := by
      have := @Begun.base p.permit f s c₀ oldReal i.chunks.length i hbegun hl hi
      rwa [List.take_length] at this
    have hmax : u64Max = 2 ^ 64 - 1 := rfl
    have hchunk : chunkPlaintextSize = 4096 := rfl
    have hfit : Bounded s f → i.chunks.length ≤ 2 ^ 51 ∧ count ≤ 2 ^ 51 := by
      intro hb
      obtain ⟨hlen, count', hok, hle⟩ := hbegun.count_le hi hb hsmall
      rw [hok] at hcount
      injection hcount with hcount
      exact ⟨hlen, hcount ▸ hle⟩
    -- the data path and the commit
    have hrest : (i.chunks.length < count → c₀.vfs.checkMetadataBudgetForChunks f
          (count - i.chunks.length) = .ok ()) → wp
        (writeData (argsOf f offset buf oldReal i.chunks.length s.hideSize) count
            (lastOf offset buf s.hideSize) >>= fun out =>
          commitInode f out.1 (max oldReal (offset + buf.length)) s.hideSize out.2 >>= fun _ =>
            pure buf.length)
        (fun n s' => n = buf.length ∧ ∃ c₀ oldReal i count c refs retired,
          Written p f s offset buf c₀ oldReal i count c refs retired s')
        (fun e s' => (Bounded s f → e ≠ .panic) ∧
          ∃ c, Path p.permit f ⟨[], [], s⟩ c ∧ c.vfs = s') c₀.vfs := by
      intro hbudget
      have hdata := @writeData_runs p f c₀ i.chunks
        (argsOf f offset buf oldReal i.chunks.length s.hideSize) count
        (lastOf offset buf s.hideSize) hbase ⟨i, hi, rfl⟩
        (hg c₀ oldReal i count hbegun hempty hi hkind hne hsmall hcount hbudget)
        (argsOf_fits hne hsmall) rfl rfl hlast hlt
      rw [wp_bind]
      unfold Runs runs at hdata
      refine wp_mono hdata ?_ ?_
      · rintro ⟨refs, retired⟩ _ ⟨c, rfl, hp, hrefs, hsees⟩
        simp only at hrefs hsees ⊢
        have hrefs : refs.length = max i.chunks.length count := by omega
        rw [wp_bind, ← hframe.hideSize]
        refine commit_spec hi (Path.frame hp) ?_ ?_
        · exact ⟨rfl, c₀, oldReal, i, count, c, refs, retired, hbegun, hi, hkind, hne, hsmall,
            hcount, hrefs, hsees, rfl⟩
        · intro e he
          refine ⟨fun hb => he ?_, c, hbegun.path.trans hp, rfl⟩
          obtain ⟨h₁, h₂⟩ := hfit hb
          rw [hrefs, hchunk]
          omega
      · rintro e _ ⟨c, rfl, hp, he⟩
        refine ⟨fun hb => he ?_, c, hbegun.path.trans hp, rfl⟩
        obtain ⟨h₁, h₂⟩ := hfit hb
        omega
    rw [wp_ite]
    refine ⟨fun _ => ?_, fun hno => hrest fun hgrow => absurd hgrow hno⟩
    rw [wp_bind, wp_fromExcept]
    exact ⟨fun _ hok => hrest fun _ => hok, fun e he => hstop (checkBudget_error he)⟩
  · -- the padded count overflows
    obtain ⟨-, count, hok, -⟩ := hbegun.count_le hi hb hsmall
    rw [hok] at he
    cases he

theorem write_spec {offset : Nat} {buf : List UInt8} (hl : Ledger ⟨[], [], s⟩)
    (hg : MayWrite p f s offset buf) :
    wp (write f offset buf)
      (fun n s' => n = buf.length ∧ ((buf = [] ∧ s' = s) ∨
        ∃ c₀ oldReal i count c refs retired,
          Written p f s offset buf c₀ oldReal i count c refs retired s'))
      (fun e s' => (Bounded s f → e ≠ .panic) ∧
        ∃ c, Path p.permit f ⟨[], [], s⟩ c ∧ c.vfs = s') s := by
  unfold write
  rw [wp_bind, wp_ensureWritable]
  refine ⟨fun _ => ⟨fun _ => nofun, _, ReflTransGen.refl, rfl⟩, fun htol => ?_⟩
  rw [wp_ite]
  refine ⟨fun hnil => ⟨by rw [hnil]; rfl, Or.inl ⟨hnil, rfl⟩⟩, fun hne => ?_⟩
  rw [wp_bind, wp_get, wp_ite]
  have hrest : ∀ {oldReal : Nat} {s₀ : Vfs}, (∃ c₀ : Cfg, c₀.vfs = s₀ ∧
      Begun p.permit f s c₀ oldReal ∧ Emptied s c₀) → _ :=
    fun {oldReal s₀} ⟨c₀, hv, hbegun, hempty⟩ => hv ▸ writeSized_spec hl hg hne hbegun hempty
  refine ⟨fun hmany => ?_, fun hfew => ?_⟩
  · have hrun := @begun_flush_runs p.permit f s htol hl hmany
    unfold Runs runs at hrun
    rw [wp_bind] at hrun ⊢
    refine wp_mono hrun ?_ ?_
    · intro _ s₁ h₁
      rw [wp_bind]
      refine wp_mono h₁ ?_ ?_
      · rintro oldReal s₀ ⟨c₀, hv, -, hbegun, hempty⟩
        refine wp_mono (hrest ⟨c₀, hv, hbegun, fun _ => hempty⟩) ?_ fun _ _ he => he
        rintro n s' ⟨hn, hw⟩
        exact ⟨hn, Or.inr hw⟩
      · rintro e _ ⟨c, rfl, hp, he⟩
        exact ⟨fun _ => he, c, hp, rfl⟩
    · rintro e _ ⟨c, rfl, hp, he⟩
      exact ⟨fun _ => he, c, hp, rfl⟩
  · have hrun := @begun_runs p.permit f s htol
    unfold Runs runs at hrun
    rw [wp_bind]
    refine wp_mono hrun ?_ ?_
    · rintro oldReal s₀ ⟨c₀, hv, -, hbegun, -⟩
      refine wp_mono (hrest ⟨c₀, hv, hbegun, fun hmany => absurd hmany hfew⟩) ?_ fun _ _ he => he
      rintro n s' ⟨hn, hw⟩
      exact ⟨hn, Or.inr hw⟩
    · rintro e _ ⟨c, rfl, hp, he⟩
      exact ⟨fun _ => he, c, hp, rfl⟩

end Vfs

end Luksbox
