import Luksbox.Proofs.Ledger

/-!
# A flush is a path

Each program a flush is made of, down to the single I/O call, is shown to take
a path of small steps, and with it what it leaves in flight. A flush never
panics, and never reports the size limit.
-/

namespace Luksbox

open Lib Relation

/-- What taking slots and generations and writing to slots leaves alone. -/
structure Still (s s' : Vfs) : Prop where
  inodes : s'.tree.inodes = s.tree.inodes
  dirty : s'.dirty = s.dirty
  format : s'.format = s.format
  chunksDirty : s'.chunksDirty = s.chunksDirty
  pendingFree : s'.pendingFree = s.pendingFree
  floor : s'.cowFloorGen = s.cowFloorGen
  header : s'.container.header = s.container.header
  recovered : s'.container.metadataRecovered = s.container.metadataRecovered

theorem Still.refl {s : Vfs} : Still s s := ⟨rfl, rfl, rfl, rfl, rfl, rfl, rfl, rfl⟩

theorem Still.trans {s s' s'' : Vfs} (h : Still s s') (h' : Still s' s'') : Still s s'' :=
  ⟨h'.inodes.trans h.inodes, h'.dirty.trans h.dirty, h'.format.trans h.format,
    h'.chunksDirty.trans h.chunksDirty, h'.pendingFree.trans h.pendingFree,
    h'.floor.trans h.floor, h'.header.trans h.header, h'.recovered.trans h.recovered⟩

/-- The configuration after an I/O call that changed no slot. -/
def Cfg.withIo (c : Cfg) (io : List Fault) : Cfg :=
  { c with vfs := { c.vfs with container := c.vfs.container.withIo io } }

theorem Cfg.path_withIo {P : Permit} {f : FileId} {c : Cfg} {io : List Fault} :
    Path P f c (c.withIo io) :=
  ReflTransGen.single (Micro.env { c.vfs.container.env with io := io })

/-- The configuration after a seal. -/
def Cfg.withSeal (c : Cfg) (x : Seal) : Cfg := { c with vfs := c.vfs.withSeal x }

theorem Cfg.path_withSeal {P : Permit} {f : FileId} {c : Cfg} {x : Seal} {io : List Fault} :
    Path P f c ((c.withSeal x).withIo io) :=
  (ReflTransGen.single (Micro.sealed x)).trans Cfg.path_withIo

/-- The configuration after a write to one slot. -/
def Cfg.withSlot (c : Cfg) (io : List Fault) (off : Nat) (id : ChunkId) (slot : Slot)
    (written : Nat) : Cfg :=
  { c with vfs := (c.withIo io).vfs.stored off id slot written }

/-- The configuration with the next generation taken. -/
def Cfg.bumpGen (c : Cfg) : Cfg :=
  ⟨c.flight, c.broken,
    c.vfs.withTree { c.vfs.tree with nextChunkGen := c.vfs.tree.nextChunkGen + 1 }⟩

/-- Nothing of the call's own has changed, and no slot was taken. -/
structure Cfg.Steady (c c' : Cfg) : Prop where
  flight : c'.flight = c.flight
  broken : c'.broken = c.broken
  still : Still c.vfs c'.vfs
  free : c'.vfs.tree.freeChunks = c.vfs.tree.freeChunks
  next : c'.vfs.tree.nextChunkId = c.vfs.tree.nextChunkId

theorem Cfg.Steady.refl {c : Cfg} : c.Steady c := ⟨rfl, rfl, Still.refl, rfl, rfl⟩

theorem Cfg.steady_withIo {c : Cfg} {io : List Fault} : c.Steady (c.withIo io) :=
  ⟨rfl, rfl, ⟨rfl, rfl, rfl, rfl, rfl, rfl, rfl, rfl⟩, rfl, rfl⟩

theorem Cfg.steady_withSeal {c : Cfg} {x : Seal} {io : List Fault} :
    c.Steady ((c.withSeal x).withIo io) :=
  ⟨rfl, rfl, ⟨rfl, rfl, rfl, rfl, rfl, rfl, rfl, rfl⟩, rfl, rfl⟩

theorem Cfg.steady_withSlot {c : Cfg} {x : Seal} {io : List Fault} {off id written : Nat}
    {slot : Slot} : c.Steady ((c.withSeal x).withSlot io off id slot written) :=
  ⟨rfl, rfl, ⟨rfl, rfl, rfl, rfl, rfl, rfl, rfl, rfl⟩, rfl, rfl⟩

theorem Cfg.steady_bumpGen {c : Cfg} : c.Steady c.bumpGen :=
  ⟨rfl, rfl, ⟨rfl, rfl, rfl, rfl, rfl, rfl, rfl, rfl⟩, rfl, rfl⟩

theorem Cfg.Steady.trans {c c' c'' : Cfg} (h : c.Steady c') (h' : c'.Steady c'') : c.Steady c'' :=
  ⟨h'.flight.trans h.flight, h'.broken.trans h.broken, h.still.trans h'.still,
    h'.free.trans h.free, h'.next.trans h.next⟩

/-- The slots taken since `c`, and nothing else of the call's own. -/
structure Cfg.Took (c c' : Cfg) (refs : List ChunkRef) : Prop where
  flight : ∀ x, c'.flight.count x = (refs.map ChunkRef.id).count x + c.flight.count x
  broken : c'.broken = c.broken
  still : Still c.vfs c'.vfs

theorem Cfg.Took.steady {c c' : Cfg} (h : c.Steady c') : c.Took c' [] :=
  ⟨fun x => by rw [h.flight]; simp, h.broken, h.still⟩

theorem Cfg.Took.trans_steady {c c' c'' : Cfg} {refs : List ChunkRef} (h : c.Took c' refs)
    (h' : c'.Steady c'') : c.Took c'' refs :=
  ⟨fun x => by rw [h'.flight]; exact h.flight x, h'.broken.trans h.broken, h.still.trans h'.still⟩

theorem Cfg.Took.mem {c c' : Cfg} {refs : List ChunkRef} (h : c.Took c' refs) {r : ChunkRef}
    (hr : r ∈ refs) : r.id ∈ c'.flight := by
  rw [← List.count_pos_iff, h.flight]
  have := List.count_pos_iff.mpr (List.mem_map_of_mem (f := ChunkRef.id) hr)
  omega

/-- The refs of a valid tree are pairs of `u64`. -/
theorem Valid.fits {t : DirectoryTree} {dataOffset : Nat} {hideSize : Bool}
    (h : Valid t dataOffset hideSize) {g : FileId} {i : Inode} (hi : t.inodes.get? g = some i)
    {r : ChunkRef} (hr : r ∈ i.chunks) : r.Fits := by
  obtain ⟨-, -, hgen, hslot⟩ := (h.inodes g i hi).refs r (List.mem_append_left _ hr)
  have hcounters := h.counters
  unfold validateCounters at hcounters
  simp only [Bool.and_eq_true, decide_eq_true_eq] at hcounters
  exact ⟨slotFits_id_le hslot, by omega⟩

namespace Vfs

variable {P : Permit} {f : FileId} {c : Cfg} {α : Type}

/-! ## Single steps -/

theorem readChunk_runs {id : FileId} {idx : Nat} {chunk : ChunkRef} :
    Runs P f c (readChunk id idx chunk)
      (fun pt c' => c.Steady c' ∧ c'.vfs.container.slots = c.vfs.container.slots ∧
        c.vfs.container.slots chunk.id (c.vfs.container.fileKey id)
          (chunkAad id (idx % 2 ^ 32) chunk.generation) = some pt)
      (fun e c' => e.Plain ∧ c.Steady c' ∧ c'.vfs.container.slots = c.vfs.container.slots) := by
  refine runs_get ?_
  refine runs_of_wp ?_
  rw [wp_onContainer]
  refine Container.readChunk_spec ?_ ?_ ?_
  · intro io pt hpt
    exact ⟨c.withIo io, rfl, Cfg.path_withIo, Cfg.steady_withIo, rfl, hpt⟩
  · intro e he
    exact ⟨c, rfl, ReflTransGen.refl, he, Cfg.Steady.refl, rfl⟩
  · intro io e he
    exact ⟨c.withIo io, rfl, Cfg.path_withIo, he, Cfg.steady_withIo, rfl⟩

theorem allocChunkGen_runs :
    Runs P f c allocChunkGen
      (fun g c' => g = c.vfs.tree.nextChunkGen ∧ g + 1 ≤ u64Max ∧ c' = c.bumpGen)
      (fun e c' => e = .err .idSpaceExhausted ∧ c' = c) := by
  refine runs_of_wp ?_
  unfold allocChunkGen
  rw [wp_alloc]
  unfold DirectoryTree.allocChunkGen
  refine ⟨fun g tree hg => ?_, fun _ => ⟨c, rfl, ReflTransGen.refl, rfl, rfl⟩⟩
  split at hg
  · cases hg
  · next hmax =>
      simp only [Option.some.injEq, Prod.mk.injEq] at hg
      obtain ⟨rfl, rfl⟩ := hg
      have hmax := Nat.not_lt.mp hmax
      exact ⟨c.bumpGen, rfl, ReflTransGen.single (Micro.gen hmax), rfl, hmax, rfl⟩

theorem allocChunkId_runs :
    Runs P f c allocChunkId
      (fun id c' => ∃ t, c.vfs.tree.allocChunkId = some (id, t) ∧
        c' = ⟨id :: c.flight, c.broken, c.vfs.withTree t⟩)
      (fun e c' => e = .err .idSpaceExhausted ∧ c' = c) := by
  refine runs_of_wp ?_
  unfold allocChunkId
  rw [wp_alloc]
  exact ⟨fun id t ht => ⟨_, rfl, ReflTransGen.single (Micro.take ht), t, ht, rfl⟩,
    fun _ => ⟨c, rfl, ReflTransGen.refl, rfl, rfl⟩⟩

theorem still_of_allocChunkId {s : Vfs} {id : ChunkId} {t : DirectoryTree}
    (h : s.tree.allocChunkId = some (id, t)) : Still s (s.withTree t) := by
  rcases allocChunkId_cases h with ⟨-, ht⟩ | ⟨-, -, -, ht⟩
  · rw [ht]
    exact ⟨rfl, rfl, rfl, rfl, rfl, rfl, rfl, rfl⟩
  · rw [ht]
    exact ⟨rfl, rfl, rfl, rfl, rfl, rfl, rfl, rfl⟩

theorem store_path {x : Seal} {io : List Fault} {off id written : Nat} {slot : Slot}
    (hid : id ∈ c.flight) : Path P f c ((c.withSeal x).withSlot io off id slot written) :=
  Cfg.path_withSeal.tail (Micro.store off slot written hid)

/-- A write to a slot in flight. -/
theorem writeChunk_runs {id : FileId} {idx : Nat} {chunk : ChunkRef} {pt : Chunk}
    (hid : chunk.id ∈ c.flight) :
    Runs P f c (writeChunk id idx chunk pt)
      (fun _ c' => c.Steady c' ∧ c'.vfs.container.slots = Function.update c.vfs.container.slots
        chunk.id (Slot.sealed (c.vfs.container.fileKey id)
          (chunkAad id (idx % 2 ^ 32) chunk.generation) pt))
      (fun e c' => e.Plain ∧ c.Steady c' ∧ ∀ x, x ≠ chunk.id →
        c'.vfs.container.slots x = c.vfs.container.slots x) := by
  refine runs_get ?_
  refine runs_of_wp ?_
  rw [wp_onContainer]
  refine Container.writeChunk_spec ?_ ?_ ?_ ?_
  · intro io off _
    exact ⟨(c.withSeal _).withSlot io off _ _ _, rfl, store_path hid, Cfg.steady_withSlot, rfl⟩
  · intro e he
    exact ⟨c, rfl, ReflTransGen.refl, he, Cfg.Steady.refl, fun _ _ => rfl⟩
  · intro io e he
    exact ⟨(c.withSeal _).withIo io, rfl, Cfg.path_withSeal, he, Cfg.steady_withSeal, fun _ _ => rfl⟩
  · intro io off left written e he
    refine ⟨(c.withSeal _).withSlot io off chunk.id left written, rfl, store_path hid, he,
      Cfg.steady_withSlot, ?_⟩
    intro x hx
    exact Function.update_of_ne hx _ _

/-! ## Writing a chain -/

theorem allocBlockRefs_runs {c₀ : Cfg} {n : Nat} {refs : List ChunkRef} (h : c₀.Took c refs)
    (hpos : 0 < c.vfs.tree.nextChunkGen) (hdrawn : ∀ r ∈ refs, r.Drawn c.vfs.tree)
    (hcont : c.vfs.container = c₀.vfs.container) :
    Runs P f c (allocBlockRefs n refs)
      (fun refs' c' => refs'.length = refs.length + n ∧ c₀.Took c' refs' ∧
        (∀ r ∈ refs', r.Drawn c'.vfs.tree) ∧ c'.vfs.container = c₀.vfs.container)
      (fun e _ => e.Plain) := by
  induction n generalizing c refs with
  | zero => exact runs_pure ⟨rfl, h, hdrawn, hcont⟩
  | succ n ih =>
      unfold allocBlockRefs
      refine runs_bind (runs_mono allocChunkId_runs ?_ ?_)
      · rintro id c₁ - ⟨t, ht, rfl⟩
        have hgen : t.nextChunkGen = c.vfs.tree.nextChunkGen := by
          rcases allocChunkId_cases ht with ⟨-, ht⟩ | ⟨-, -, -, ht⟩ <;> rw [ht]
        refine runs_bind (runs_mono allocChunkGen_runs ?_ ?_)
        · rintro g c₂ - ⟨rfl, hmax, rfl⟩
          have hmax : t.nextChunkGen + 1 ≤ u64Max := hmax
          refine runs_mono (ih ?_ (Nat.succ_pos _) ?_ hcont) ?_ fun _ _ _ he => he
          · refine ⟨fun x => ?_, h.broken, ?_⟩
            · have hx := h.flight x
              simp only [Cfg.bumpGen, List.count_cons, List.map_append, List.map_cons, List.map_nil,
                List.count_append, List.count_nil]
              omega
            · exact (h.still.trans (still_of_allocChunkId ht)).trans
                ⟨rfl, rfl, rfl, rfl, rfl, rfl, rfl, rfl⟩
          · intro r hr
            rcases List.mem_append.mp hr with hr | hr
            · refine ⟨(hdrawn r hr).links, ?_⟩
              have hlt := (hdrawn r hr).below
              show r.generation < t.nextChunkGen + 1
              omega
            · rw [List.mem_singleton.mp hr]
              refine ⟨⟨?_, ?_⟩, Nat.lt_succ_self _⟩
              · show t.nextChunkGen ≠ 0
                omega
              · show t.nextChunkGen ≤ u64Max
                omega
          · rintro refs' c₃ - ⟨hlen, hrest⟩
            refine ⟨?_, hrest⟩
            rw [List.length_append, List.length_singleton] at hlen
            omega
        · rintro e c₂ - ⟨rfl, -⟩
          exact ⟨nofun, nofun⟩
      · rintro e c₁ - ⟨rfl, -⟩
        exact ⟨nofun, nofun⟩

theorem encodeChunkListBlock_plain {padding : Chunk} {entries : List ChunkRef}
    {next : Option ChunkRef} {e : Failure} (h : encodeChunkListBlock padding entries next = .error e) :
    e.Plain := by
  unfold encodeChunkListBlock at h
  split at h
  · injection h with h
    rw [← h]
    exact ⟨nofun, nofun⟩
  · cases h

theorem writeChunkListBlock_runs {id : FileId} {idx : Nat} {chunk : ChunkRef}
    {entries : List ChunkRef} {next : Option ChunkRef} (hid : chunk.id ∈ c.flight) :
    Runs P f c (onContainer (Container.writeChunkListBlock id idx chunk entries next))
      (fun _ c' => c.Steady c' ∧ (∃ off, slotOffset c.vfs.dataOffset chunk.id = .ok off) ∧ ∃ pt,
        encodeChunkListBlock c.vfs.container.env.padding entries next = .ok pt ∧
        c'.vfs.container.slots = Function.update c.vfs.container.slots chunk.id
          (Slot.sealed (c.vfs.container.listFileKey id)
            (chunkAad (listFileId id) idx chunk.generation) pt))
      (fun e _ => e.Plain) := by
  refine runs_of_wp ?_
  rw [wp_onContainer]
  unfold Container.writeChunkListBlock
  rw [wp_bind, wp_get, wp_bind]
  cases hpt : encodeChunkListBlock c.vfs.container.env.padding entries next with
  | error e =>
      rw [wp_fromExcept_error]
      exact ⟨c, rfl, ReflTransGen.refl, encodeChunkListBlock_plain hpt⟩
  | ok pt =>
      rw [wp_fromExcept_ok]
      refine Container.writeChunk_spec ?_ ?_ ?_ ?_
      · intro io off hoff
        exact ⟨(c.withSeal _).withSlot io off _ _ _, rfl, store_path hid, Cfg.steady_withSlot,
          ⟨off, hoff⟩, pt, rfl, rfl⟩
      · intro e he
        exact ⟨c, rfl, ReflTransGen.refl, he⟩
      · intro io e he
        exact ⟨(c.withSeal _).withIo io, rfl, Cfg.path_withSeal, he⟩
      · intro io off left written e he
        exact ⟨(c.withSeal _).withSlot io off chunk.id left written, rfl, store_path hid, he⟩

/-- What writing the blocks leaves: every block has a place in the file, no other
slot changed, and the list is laid out in them if they are different ones. -/
structure Wrote (id : FileId) (entries : List ChunkRef) (idx : Nat) (blocks : List ChunkRef)
    (c c' : Cfg) : Prop where
  placed : ∀ b ∈ blocks, slotFits c.vfs.dataOffset b.id = true
  others : ∀ x, x ∉ blocks.map ChunkRef.id → c'.vfs.container.slots x = c.vfs.container.slots x
  laid : (blocks.map ChunkRef.id).Nodup → Laid c'.vfs.container.slots
    (c.vfs.container.listFileKey id) id entries idx blocks

theorem writeListBlocks_runs {id : FileId} {entries : List ChunkRef} {idx : Nat}
    {blocks : List ChunkRef} (hblocks : ∀ r ∈ blocks, r.id ∈ c.flight)
    (hlen : blocks ≠ [] → (idx + blocks.length - 1) * chunkListEntriesPerBlock ≤ entries.length) :
    Runs P f c (writeListBlocks id entries idx blocks)
      (fun _ c' => c.Steady c' ∧ Wrote id entries idx blocks c c') (fun e _ => e.Plain) := by
  induction blocks generalizing c idx with
  | nil => exact runs_pure ⟨Cfg.Steady.refl, nofun, fun _ _ => rfl, fun _ => trivial⟩
  | cons block rest ih =>
      unfold writeListBlocks
      have hlen := hlen (List.cons_ne_nil _ _)
      rw [List.length_cons] at hlen
      have hstart : idx * chunkListEntriesPerBlock ≤ entries.length := by
        refine le_trans (Nat.mul_le_mul_right _ ?_) hlen
        omega
      refine runs_bind (runs_fromExcept ?_ ?_)
      · intro packed hpacked
        have hshare : packed = (entries.drop (idx * 254)).take 254 := by
          rw [(sliceList_eq_ok hpacked).1]
          unfold chunkListEntriesPerBlock
          rw [List.take_eq_take_iff, List.length_drop]
          omega
        refine runs_bind (runs_mono (writeChunkListBlock_runs (hblocks block List.mem_cons_self)) ?_
          fun _ _ _ he => he)
        rintro _ c₁ hp₁ ⟨h₁, ⟨off, hoff⟩, pt, hpt, hslots⟩
        have hkey : c₁.vfs.container.listFileKey id = c.vfs.container.listFileKey id :=
          (Path.frame hp₁).fileKey
        have hoffset : c₁.vfs.dataOffset = c.vfs.dataOffset :=
          congrArg Header.dataOffset h₁.still.header
        refine runs_mono (ih ?_ ?_) ?_ fun _ _ _ he => he
        · intro r hr
          rw [h₁.1]
          exact hblocks r (List.mem_cons_of_mem _ hr)
        · intro _
          have : idx + 1 + rest.length - 1 = idx + (rest.length + 1) - 1 := by omega
          rw [this]
          exact hlen
        · rintro _ c₂ - ⟨h₂, hrest⟩
          refine ⟨h₁.trans h₂, ?_, fun x hx => ?_, fun hnodup => ?_⟩
          · intro b hb
            rcases List.mem_cons.mp hb with rfl | hb
            · unfold slotFits
              rw [hoff]
              rfl
            · rw [← hoffset]
              exact hrest.placed b hb
          · rw [List.map_cons, List.mem_cons, not_or] at hx
            rw [hrest.others x hx.2, hslots, Function.update_of_ne hx.1]
          · rw [List.map_cons, List.nodup_cons] at hnodup
            refine ⟨⟨_, pt, hshare ▸ hpt, ?_⟩, ?_⟩
            · rw [hrest.others block.id hnodup.1, hslots, Function.update_self]
            · have hlaid := hrest.laid hnodup.2
              rw [hkey] at hlaid
              exact hlaid
      · -- the slice is within bounds
        intro e he
        unfold sliceList at he
        split at he
        · next hbad => omega
        · cases he

/-- The number of list blocks for a list of the given length. -/
theorem blockCount_pos {n : Nat} (h : 0 < n) :
    0 < (n + chunkListEntriesPerBlock - 1) / chunkListEntriesPerBlock ∧
      ((n + chunkListEntriesPerBlock - 1) / chunkListEntriesPerBlock - 1)
        * chunkListEntriesPerBlock ≤ n := by
  unfold chunkListEntriesPerBlock
  omega

/-- A chain that was written. -/
structure Spilled (id : FileId) (entries refs : List ChunkRef) (c c' : Cfg) : Prop where
  drawn : ∀ b ∈ refs, b.Drawn c'.vfs.tree
  placed : ∀ b ∈ refs, slotFits c.vfs.dataOffset b.id = true
  others : ∀ x, x ∉ refs.map ChunkRef.id → c'.vfs.container.slots x = c.vfs.container.slots x
  chained : (refs.map ChunkRef.id).Nodup → Chained c'.vfs.container.slots
    (c.vfs.container.listFileKey id) id 0 refs entries

theorem writeExternalChainFor_runs {id : FileId} {entries : List ChunkRef}
    (hne : 0 < entries.length) (hpos : 0 < c.vfs.tree.nextChunkGen)
    (hfits : ∀ r ∈ entries, r.Fits) :
    Runs P f c (writeExternalChainFor id entries)
      (fun r c' => r.2.1 = entries.length ∧ r.2.2.head? = some r.1 ∧ c.Took c' r.2.2 ∧
        Spilled id entries r.2.2 c c')
      (fun e _ => e.Plain) := by
  unfold writeExternalChainFor
  obtain ⟨hcount, hbound⟩ := blockCount_pos hne
  refine runs_bind (runs_mono (allocBlockRefs_runs (Cfg.Took.steady Cfg.Steady.refl) hpos nofun rfl)
    ?_ fun _ _ _ he => he)
  rintro refs c₁ - ⟨hlen, htook, hdrawn, hcont⟩
  rw [List.length_nil, Nat.zero_add] at hlen
  refine runs_bind (runs_mono (writeListBlocks_runs (fun r hr => htook.mem hr) ?_) ?_
    fun _ _ _ he => he)
  · intro _
    rw [hlen, Nat.zero_add]
    exact hbound
  · rintro _ c₂ hp₂ ⟨h₂, hwrote⟩
    have hplaced : ∀ b ∈ refs, slotFits c.vfs.dataOffset b.id = true := by
      have hplaced := hwrote.placed
      unfold dataOffset at hplaced ⊢
      rw [hcont] at hplaced
      exact hplaced
    have hspilled : Spilled id entries refs c c₂ := by
      refine ⟨fun b hb => ⟨(hdrawn b hb).links, ?_⟩, hplaced, fun x hx => ?_, fun hnodup => ?_⟩
      · exact (hdrawn b hb).below.trans_le (Path.frame hp₂).nextChunkGen
      · rw [hwrote.others x hx, hcont]
      · have hlaid := hwrote.laid hnodup
        rw [hcont] at hlaid
        refine hlaid.chained hfits (fun b hb => ?_) ?_
        · have hlinks := (hdrawn b hb).links
          exact ⟨⟨slotFits_id_le (hplaced b hb), hlinks.2⟩, hlinks.1⟩
        · rw [hlen]
          unfold chunkListEntriesPerBlock
          omega
    cases hrefs : refs with
    | nil =>
        rw [hrefs, List.length_nil] at hlen
        omega
    | cons head rest =>
        refine runs_bind (runs_fromExcept ?_ ?_)
        · intro r hr
          have hr : (.ok head : Except Failure ChunkRef) = .ok r := hr
          injection hr with hr
          rw [← hr]
          rw [hrefs] at htook hspilled
          exact runs_pure ⟨rfl, rfl, htook.trans_steady h₂, hspilled⟩
        · intro e he
          cases he

/-! ## Spilling -/

/-- What spilling leaves alone. -/
structure SpillFrame (c c' : Cfg) : Prop where
  flight : c'.flight = c.flight
  broken : c'.broken = c.broken
  format : c'.vfs.format = c.vfs.format
  marks : c'.vfs.chunksDirty = c.vfs.chunksDirty
  pending : c.vfs.pendingFree.length ≤ c'.vfs.pendingFree.length

theorem SpillFrame.refl : SpillFrame c c := ⟨rfl, rfl, rfl, rfl, le_refl _⟩

theorem SpillFrame.trans {c' c'' : Cfg} (h : SpillFrame c c') (h' : SpillFrame c' c'') :
    SpillFrame c c'' :=
  ⟨h'.flight.trans h.flight, h'.broken.trans h.broken, h'.format.trans h.format,
    h'.marks.trans h.marks, h.pending.trans h'.pending⟩

theorem drained_pending {s : Vfs} {g : FileId} {i : Inode} :
    s.pendingFree.length ≤ (s.drained g i).pendingFree.length := by
  show s.pendingFree.length ≤ (s.pendingFree ++ i.externalListBlocks.map ChunkRef.id).length
  rw [List.length_append]
  exact Nat.le_add_right _ _

theorem inodeOr_runs {e : Failure} {id : FileId} {i : Inode} {Q : Inode → Cfg → Prop}
    {E : Failure → Cfg → Prop} (hi : c.vfs.tree.inodes.get? id = some i) (hQ : Q i c) :
    Runs P f c (inodeOr e id) Q E := by
  refine runs_of_wp ?_
  rw [wp_inodeOr]
  refine ⟨fun j hj => ?_, fun hnone => ?_⟩
  · rw [hi] at hj
    injection hj with hj
    exact ⟨c, rfl, ReflTransGen.refl, hj ▸ hQ⟩
  · rw [hi] at hnone
    cases hnone

theorem drainExternals_runs {id : FileId} {i : Inode} {E : Failure → Cfg → Prop}
    (hi : c.vfs.tree.inodes.get? id = some i) :
    Runs P f c (drainExternals id)
      (fun _ c' => c' = ⟨c.flight, c.broken, c.vfs.drained id i⟩) E := by
  refine runs_of_wp ?_
  unfold drainExternals
  simp only [wp_bind, wp_inodeOr, wp_updateInode, wp_pushPending]
  refine ⟨fun j hj => ⟨fun k _ => ?_, fun hnone => ?_⟩, fun hnone => ?_⟩
  · rw [hi] at hj
    injection hj with hj
    subst hj
    exact ⟨_, rfl, ReflTransGen.single (Micro.drain hi), rfl⟩
  · rw [hi] at hnone
    cases hnone
  · rw [hi] at hnone
    cases hnone

/-- The inode's list blocks after it was spilled. -/
structure Renewed (id : FileId) (i : Inode) (refs : List ChunkRef) (c c' : Cfg) : Prop where
  others : ∀ x, x ∉ refs.map ChunkRef.id → c'.vfs.container.slots x = c.vfs.container.slots x
  spilled : i.needsExternal c.vfs.format = true → refs ≠ []
  chained : id ∈ c.vfs.chunksDirty → refs ≠ [] → (refs.map ChunkRef.id).Nodup →
    Chained c'.vfs.container.slots (c.vfs.container.listFileKey id) id 0 refs i.chunks

/-- One inode spilled: its list blocks may be others now, and the result is
what the inode is stored as with these. -/
theorem spillInode_runs {id : FileId} {i : Inode} (hi : c.vfs.tree.inodes.get? id = some i)
    (hformat : c.vfs.format ≠ .v2) (hpos : 0 < c.vfs.tree.nextChunkGen)
    (hfits : ∀ r ∈ i.chunks, r.Fits) :
    Runs P f c (spillInode id)
      (fun od c' => SpillFrame c c' ∧ ∃ refs,
        od = Inode.onDisk c.vfs.format { i with externalListBlocks := refs } ∧
        c'.vfs.tree.inodes =
          c.vfs.tree.inodes.insert id { i with externalListBlocks := refs } ∧
        Renewed id i refs c c')
      (fun e _ => e.Plain) := by
  unfold spillInode
  refine runs_get ?_
  refine runs_bind (inodeOr_runs hi ?_)
  have hneeds : (decide (i.kind = .file) &&
      decide (i.chunks.length > c.vfs.format.inlineChunkThreshold)) =
      i.needsExternal c.vfs.format := rfl
  simp only [hneeds]
  cases hreuse : reusableChain c.vfs id i (i.needsExternal c.vfs.format) with
  | some head =>
      -- the chain is kept
      unfold reusableChain at hreuse
      split at hreuse
      · next hcond =>
          refine runs_pure ⟨SpillFrame.refl, i.externalListBlocks, ?_, ?_, fun _ _ => rfl,
            fun _ hnil => ?_, fun hmark => absurd hmark hcond.2⟩
          · unfold Inode.onDisk
            rw [if_pos (by exact hcond.1), hreuse]
            rfl
          · exact (OrdMap.insert_get? hi).symm
          · rw [hnil] at hreuse
            cases hreuse
      · cases hreuse
  | none =>
      refine runs_bind (runs_mono (drainExternals_runs (E := fun e _ => e.Plain) hi) ?_
        fun _ _ _ he => he)
      rintro _ c₁ - rfl
      have hdrained : (c.vfs.drained id i).tree.inodes =
          c.vfs.tree.inodes.insert id { i with externalListBlocks := [] } :=
        OrdMap.adjust_eq_insert hi
      refine runs_ite (fun hneed => ?_) fun hneed => ?_
      · have hlen : 0 < i.chunks.length := by
          unfold Inode.needsExternal at hneed
          simp only [Bool.and_eq_true, decide_eq_true_eq] at hneed
          omega
        refine runs_bind (runs_mono (writeExternalChainFor_runs hlen hpos hfits) ?_
          fun _ _ _ he => he)
        rintro ⟨head, count, refs⟩ c₂ hp₂ ⟨rfl, hhead, htook, hspilled⟩
        have hhead : refs.head? = some head := hhead
        have hkey : c₂.vfs.container.listFileKey id = c.vfs.container.listFileKey id :=
          (Path.frame hp₂).fileKey
        have hin : c₂.vfs.tree.inodes =
            c.vfs.tree.inodes.insert id { i with externalListBlocks := [] } :=
          htook.still.inodes.trans hdrained
        have hget : c₂.vfs.tree.inodes.get? id = some { i with externalListBlocks := [] } := by
          rw [hin, OrdMap.get?_insert_self]
        refine runs_bind (runs_of_wp ?_)
        rw [wp_updateInode]
        refine ⟨fun j hj => ?_, fun hnone => ?_⟩
        · refine ⟨⟨c.flight, c₂.broken, c₂.vfs.mapInode id _⟩, rfl, ReflTransGen.single
            (Micro.chain refs hget rfl (fun x => ?_) ?_ fun hnodup => ?_), ?_⟩
          · exact Nat.le_of_eq ((Nat.add_comm _ _).trans (htook.flight x).symm)
          · rw [htook.still.format]
            exact hformat
          · rw [hkey]
            exact hspilled.chained hnodup
          · refine runs_pure ⟨⟨rfl, htook.broken, htook.still.format, htook.still.chunksDirty, ?_⟩,
              refs, ?_, ?_, hspilled.others, fun _ hnil => ?_, fun _ _ => hspilled.chained⟩
            · show _ ≤ c₂.vfs.pendingFree.length
              rw [htook.still.pendingFree]
              exact drained_pending
            · unfold Inode.onDisk
              rw [if_pos (by exact hneed), hhead]
              rfl
            · show OrdMap.adjust c₂.vfs.tree.inodes id _ = _
              rw [OrdMap.adjust_eq_insert hget, hin, OrdMap.insert_insert]
            · rw [hnil] at hhead
              cases hhead
        · rw [hget] at hnone
          cases hnone
      · refine runs_pure ⟨⟨rfl, rfl, rfl, rfl, drained_pending⟩, [], ?_, hdrained,
          fun _ _ => rfl, fun hneed' => absurd hneed' hneed, fun _ hnil => absurd rfl hnil⟩
        unfold Inode.onDisk
        rw [if_neg (by exact hneed)]
        rfl

/-- Two inodes hold different slots where no slot is held twice. -/
theorem refIds_apart {m : Inodes} (hone : ∀ x, m.tally Inode.refIds x ≤ 1) {g h : FileId}
    {i j : Inode} (hi : m.get? g = some i) (hj : m.get? h = some j) (hne : h ≠ g) {x : ChunkId}
    (hx : x ∈ i.refIds) : x ∉ j.refIds := by
  intro hy
  have hrest : (m.erase g).get? h = some j := by
    rw [OrdMap.get?_erase_of_ne hne, hj]
  have htwo := hone x
  rw [OrdMap.tally_of_get? hi, OrdMap.tally_of_get? hrest] at htwo
  have hposi := List.count_pos_iff.mpr hx
  have hposj := List.count_pos_iff.mpr hy
  omega

/-- What spilling these inodes has done to the list blocks. -/
structure Respilled (ids : List FileId) (c c' : Cfg) : Prop where
  inodes : ∀ g, g ∉ ids → c'.vfs.tree.inodes.get? g = c.vfs.tree.inodes.get? g
  others : ∀ x, (∀ g ∈ ids, ∀ i, c'.vfs.tree.inodes.get? g = some i → x ∉ i.listIds) →
    c'.vfs.container.slots x = c.vfs.container.slots x
  spilled : ∀ g ∈ ids, ∀ i, c'.vfs.tree.inodes.get? g = some i →
    i.needsExternal c.vfs.format = true → i.externalListBlocks ≠ []
  renewed : (∀ x, c'.vfs.tree.inodes.tally Inode.refIds x ≤ 1) →
    ∀ g ∈ ids, ∀ i, c'.vfs.tree.inodes.get? g = some i → g ∈ c.vfs.chunksDirty →
    i.externalListBlocks ≠ [] → Chained c'.vfs.container.slots (c.vfs.container.listFileKey g) g 0
      i.externalListBlocks i.chunks

theorem Respilled.cons {id : FileId} {ids : List FileId} {i : Inode} {refs : List ChunkRef}
    {c' c'' : Cfg} (hid : id ∉ ids) (hframe : SpillFrame c c')
    (hkey : ∀ g, c'.vfs.container.listFileKey g = c.vfs.container.listFileKey g)
    (hin : c'.vfs.tree.inodes = c.vfs.tree.inodes.insert id { i with externalListBlocks := refs })
    (h : Renewed id i refs c c') (hrest : Respilled ids c' c'') :
    Respilled (id :: ids) c c'' := by
  have hget : c''.vfs.tree.inodes.get? id = some { i with externalListBlocks := refs } := by
    rw [hrest.inodes id hid, hin, OrdMap.get?_insert_self]
  refine ⟨fun g hg => ?_, fun x hx => ?_, fun g hg j hj hneed => ?_,
    fun hone g hg j hj hmark hne => ?_⟩
  · rw [List.mem_cons, not_or] at hg
    rw [hrest.inodes g hg.2, hin, OrdMap.get?_insert, if_neg hg.1]
  · have hown := hx id List.mem_cons_self _ hget
    have hlater := hrest.others x fun g hg => hx g (List.mem_cons_of_mem _ hg)
    exact hlater.trans (h.others x hown)
  · rcases List.mem_cons.mp hg with rfl | hg
    · have hji := Option.some.inj (hj.symm.trans hget)
      rw [hji] at hneed ⊢
      exact h.spilled hneed
    · refine hrest.spilled g hg j hj ?_
      rw [hframe.format]
      exact hneed
  · rcases List.mem_cons.mp hg with rfl | hg
    · have hji := Option.some.inj (hj.symm.trans hget)
      subst hji
      have hnodup : (refs.map ChunkRef.id).Nodup := by
        refine List.nodup_iff_count_le_one.mpr fun x => ?_
        have hx := hone x
        rw [OrdMap.tally_of_get? hget, Ledger.refIds_count] at hx
        show (refs.map ChunkRef.id).count x ≤ 1
        simp only at hx
        omega
      -- the chains written after it are in other slots
      refine (h.chained hmark hne hnodup).congr fun b hb => hrest.others b.id ?_
      intro g' hg' j' hj' hlist
      have hne' : g' ≠ g := fun heq => hid (heq ▸ hg')
      exact refIds_apart hone hget hj' hne'
        (List.mem_append_right _ (List.mem_map_of_mem hb)) (List.mem_append_right _ hlist)
    · rw [← hkey]
      refine hrest.renewed hone g hg j hj ?_ hne
      rw [hframe.marks]
      exact hmark

/-- The inodes spilled so far are stored as they are now. -/
theorem spillInodes_runs {ids : List FileId} {onDisk : OrdMap FileId InodeV3OnDisk}
    (hnd : ids.Nodup) (hex : ∀ id ∈ ids, ∃ i, c.vfs.tree.inodes.get? id = some i)
    (hdone : ∀ k, onDisk.get? k = if k ∈ ids then none
      else (c.vfs.tree.inodes.get? k).map (Inode.onDisk c.vfs.format))
    (hformat : c.vfs.format ≠ .v2) (hpos : 0 < c.vfs.tree.nextChunkGen)
    (hfits : ∀ g i, c.vfs.tree.inodes.get? g = some i → ∀ r ∈ i.chunks, r.Fits) :
    Runs P f c (spillInodes ids onDisk)
      (fun onDisk' c' => SpillFrame c c' ∧
        onDisk' = c'.vfs.tree.inodes.mapVals (Inode.onDisk c'.vfs.format) ∧ Respilled ids c c')
      (fun e _ => e.Plain) := by
  induction ids generalizing c onDisk with
  | nil =>
      refine runs_pure ⟨SpillFrame.refl, ?_, fun _ _ => rfl, fun _ _ => rfl, nofun, nofun⟩
      apply OrdMap.ext_get?
      intro k
      rw [hdone k, if_neg (List.not_mem_nil), OrdMap.get?_mapVals]
  | cons id ids ih =>
      obtain ⟨hid, hnd⟩ := List.nodup_cons.mp hnd
      obtain ⟨i, hi⟩ := hex id List.mem_cons_self
      unfold spillInodes
      refine runs_bind (runs_mono (spillInode_runs hi hformat hpos (hfits id i hi)) ?_
        fun _ _ _ he => he)
      rintro od c₁ hp₁ ⟨hframe, refs, rfl, hin, hrenewed⟩
      refine runs_mono (ih hnd ?_ ?_ ?_ ?_ ?_) ?_ fun _ _ _ he => he
      · intro k hk
        rw [hin, OrdMap.get?_insert]
        split
        · exact ⟨_, rfl⟩
        · exact hex k (List.mem_cons_of_mem _ hk)
      · intro k
        rw [hin, hframe.format, OrdMap.get?_insert, OrdMap.get?_insert, hdone k]
        by_cases hk : k = id
        · subst hk
          rw [if_pos rfl, if_pos rfl, if_neg hid]
          rfl
        · rw [if_neg hk, if_neg hk]
          simp only [List.mem_cons, hk, false_or]
      · rw [hframe.format]
        exact hformat
      · exact hpos.trans_le (Path.frame hp₁).nextChunkGen
      · intro g j hj
        obtain ⟨j₀, hj₀, hbare⟩ := (Path.frame hp₁).inode_back hj
        rw [Inode.bare_chunks hbare]
        exact hfits g j₀ hj₀
      · rintro onDisk' c₂ - ⟨hframe', heq, hrespilled⟩
        exact ⟨hframe.trans hframe', heq, Respilled.cons hid hframe
          (fun g => (Path.frame hp₁).fileKey) hin hrenewed hrespilled⟩

/-- What is left is what a flush publishes. -/
theorem Respilled.prepared {c' : Cfg} (hframe : SpillFrame c c') (hframe' : Frame c.vfs c'.vfs)
    (h : Respilled c.vfs.tree.inodes.keys c c') : c'.vfs.Prepared := by
  have hkeys : ∀ g i, c'.vfs.tree.inodes.get? g = some i → g ∈ c.vfs.tree.inodes.keys := by
    intro g i hi
    obtain ⟨j, hj, -⟩ := hframe'.inode_back hi
    exact OrdMap.mem_keys_iff.mpr ⟨j, hj⟩
  refine ⟨fun _ g i hi hneed => ?_, fun _ hone g i hi hmark hne => ?_⟩
  · rw [hframe.format] at hneed
    exact h.spilled g (hkeys g i hi) i hi hneed
  · rw [hframe.marks] at hmark
    have hchain := h.renewed hone g (hkeys g i hi) i hi hmark hne
    unfold Links
    have hkey : c'.vfs.container.listFileKey g = c.vfs.container.listFileKey g := hframe'.fileKey
    rw [hkey]
    exact hchain

theorem spillToV3OnDisk_runs (hformat : c.vfs.format ≠ .v2) (hpos : 0 < c.vfs.tree.nextChunkGen)
    (hfits : ∀ g i, c.vfs.tree.inodes.get? g = some i → ∀ r ∈ i.chunks, r.Fits) :
    Runs P f c spillToV3OnDisk
      (fun v3 c' => SpillFrame c c' ∧
        v3 = c'.vfs.tree.toV3OnDisk (c'.vfs.tree.inodes.mapVals (Inode.onDisk c'.vfs.format)) ∧
        c'.vfs.Prepared)
      (fun e _ => e.Plain) := by
  unfold spillToV3OnDisk
  refine runs_get ?_
  refine runs_bind (runs_mono (spillInodes_runs c.vfs.tree.inodes.keys_nodup ?_ ?_ hformat hpos
    hfits) ?_ fun _ _ _ he => he)
  · intro id hid
    exact OrdMap.mem_keys_iff.mp hid
  · intro k
    split
    · rfl
    · next hk =>
        cases hget : c.vfs.tree.inodes.get? k with
        | none => rfl
        | some i => exact absurd (OrdMap.mem_keys_iff.mpr ⟨i, hget⟩) hk
  · rintro onDisk c₁ hp₁ ⟨hframe, rfl, hrespilled⟩
    refine runs_get ?_
    exact runs_pure ⟨hframe, rfl, hrespilled.prepared hframe (Path.frame hp₁)⟩

theorem mapWithKey_onDisk {m : Inodes} {format : MetadataFormat} :
    ((m.mapVals (Inode.onDisk format)).mapWithKey fun id od =>
      od.toV4OnDisk ((m.get? id).getD default)) =
    m.mapVals fun i => (i.onDisk format).toV4OnDisk i := by
  apply OrdMap.ext_get?
  intro k
  rw [OrdMap.get?_mapWithKey, OrdMap.get?_mapVals, OrdMap.get?_mapVals]
  cases m.get? k with
  | none => rfl
  | some i => rfl

/-- The tree in the LBM4 shape, before the freed slots are added. -/
theorem spillToV4OnDisk_runs (hformat : c.vfs.format ≠ .v2) (hpos : 0 < c.vfs.tree.nextChunkGen)
    (hfits : ∀ g i, c.vfs.tree.inodes.get? g = some i → ∀ r ∈ i.chunks, r.Fits) :
    Runs P f c spillToV4OnDisk
      (fun v4 c' => SpillFrame c c' ∧
        ({ v4 with freeChunks := v4.freeChunks ++ c'.vfs.pendingFree } : DirectoryTreeV4OnDisk) =
          c'.vfs.treeV4Of ∧ c'.vfs.Prepared)
      (fun e _ => e.Plain) := by
  unfold spillToV4OnDisk
  refine runs_bind (runs_mono (spillToV3OnDisk_runs hformat hpos hfits) ?_ fun _ _ _ he => he)
  rintro v3 c₁ - ⟨hframe, rfl, hprep⟩
  refine runs_get ?_
  refine runs_ite (fun hmissing => ?_) fun _ => ?_
  · -- every id of the spilled map is an id of the tree
    obtain ⟨id, hid, hno⟩ := List.any_eq_true.mp hmissing
    have hid : id ∈ (c₁.vfs.tree.inodes.mapVals (Inode.onDisk c₁.vfs.format)).keys := hid
    rw [OrdMap.keys_mapVals] at hid
    have hin : c₁.vfs.tree.inodes.contains id = true :=
      OrdMap.contains_iff.mpr (OrdMap.mem_keys_iff.mp hid)
    rw [hin] at hno
    cases hno
  · refine runs_pure ⟨hframe, ?_, hprep⟩
    unfold treeV4Of
    simp only [DirectoryTree.toV3OnDisk, mapWithKey_onDisk]

/-! ## The whole flush -/

theorem checkPayload_runs {len : Nat} {Q : Unit → Cfg → Prop} (hQ : Q () c) :
    Runs P f c (checkPayload len) Q (fun e _ => e.Plain) := by
  unfold checkPayload
  exact runs_ite (fun _ => runs_throw ⟨nofun, nofun⟩) fun _ => runs_pure hQ

theorem encodeMetadata_runs (hpos : 0 < c.vfs.tree.nextChunkGen)
    (hfits : ∀ g i, c.vfs.tree.inodes.get? g = some i → ∀ r ∈ i.chunks, r.Fits) :
    Runs P f c encodeMetadata
      (fun blob c' => SpillFrame c c' ∧ blob = c'.vfs.blobOf ∧ c'.vfs.Prepared)
      (fun e _ => e.Plain) := by
  unfold encodeMetadata
  refine runs_get ?_
  cases hformat : c.vfs.format with
  | v5 =>
      refine runs_bind (runs_mono (spillToV4OnDisk_runs ?_ hpos hfits) ?_ fun _ _ _ he => he)
      · rw [hformat]
        nofun
      rintro v4 c₁ - ⟨hframe, heq, hprep⟩
      refine runs_get ?_
      refine runs_bind (checkPayload_runs ?_)
      refine runs_pure ⟨hframe, ?_, hprep⟩
      have hf : c₁.vfs.format = .v5 := hframe.format.trans hformat
      unfold blobOf
      rw [hf, heq]
  | v4 =>
      refine runs_bind (runs_mono (spillToV4OnDisk_runs ?_ hpos hfits) ?_ fun _ _ _ he => he)
      · rw [hformat]
        nofun
      rintro v4 c₁ - ⟨hframe, heq, hprep⟩
      refine runs_get ?_
      refine runs_bind (checkPayload_runs ?_)
      refine runs_pure ⟨hframe, ?_, hprep⟩
      have hf : c₁.vfs.format = .v4 := hframe.format.trans hformat
      unfold blobOf
      rw [hf, heq]
  | v3 =>
      refine runs_bind (runs_mono (spillToV3OnDisk_runs ?_ hpos hfits) ?_ fun _ _ _ he => he)
      · rw [hformat]
        nofun
      rintro v3 c₁ - ⟨hframe, rfl, hprep⟩
      refine runs_get ?_
      refine runs_bind (checkPayload_runs ?_)
      refine runs_pure ⟨hframe, ?_, hprep⟩
      have hf : c₁.vfs.format = .v3 := hframe.format.trans hformat
      have hblob : c₁.vfs.blobOf = .lbm3 c₁.vfs.treeV3Of := by
        unfold blobOf
        rw [hf]
      rw [hblob]
      rfl
  | v2 =>
      refine runs_bind (checkPayload_runs ?_)
      refine runs_pure ⟨SpillFrame.refl, ?_, fun h => absurd hformat h, fun h => absurd hformat h⟩
      unfold blobOf
      rw [hformat]

theorem validateMetadataTree_plain {t : DirectoryTree} {dataOffset : Nat} {hideSize : Bool}
    {e : Failure} (h : validateMetadataTree t dataOffset hideSize = .error e) : e.Plain := by
  rw [validate_refuses e h]
  exact ⟨nofun, nofun⟩

/-- What a commit turns over: the waiting slots are free, and every generation
from before it is below the floor. -/
structure Supplied (s s' : Vfs) : Prop where
  free : s.pendingFree.length ≤ s'.tree.freeChunks.length
  floor : s.tree.nextChunkGen ≤ s'.cowFloorGen

theorem upgraded_pending {s : Vfs} : s.upgradeHeader.upgradeToV4.pendingFree = s.pendingFree := by
  have hheader : s.upgradeHeader.pendingFree = s.pendingFree := by
    unfold upgradeHeader
    split <;> rfl
  rw [← hheader]
  unfold upgradeToV4
  split <;> rfl

/-- An upgrade changes how the tree is stored. -/
theorem upgraded_tree {s : Vfs} : s.upgradeHeader.upgradeToV4.tree = s.tree := by
  have hheader : s.upgradeHeader.tree = s.tree := by
    unfold upgradeHeader
    split <;> rfl
  rw [← hheader]
  unfold upgradeToV4
  split <;> rfl

/-- A commit that returns leaves nothing freed and nothing dirty. -/
theorem commitMetadata_runs (hb : c.broken = [] ∨ P.midFlush) :
    Runs P f c commitMetadata
      (fun _ c' => c'.flight = c.flight ∧ c'.broken = c.broken ∧ c'.vfs.pendingFree = [] ∧
        c'.vfs.dirty = false ∧ Supplied c.vfs c'.vfs)
      (fun e _ => e.Plain) := by
  -- from the floor on, it only rises
  have hfloor : ∀ {c' : Cfg}, Path P f ⟨c.flight, c.broken,
      { c.vfs with cowFloorGen := c.vfs.tree.nextChunkGen }⟩ c' →
      c.vfs.tree.nextChunkGen ≤ c'.vfs.cowFloorGen := fun hp =>
    (Path.frame hp).floor.elim (fun heq => le_of_eq heq.symm) id
  unfold commitMetadata
  refine runs_bind (runs_modify (@Micro.floor P f c.flight c.broken c.vfs) rfl ?_)
  refine runs_mono (Q := fun _ c' => c'.flight = c.flight ∧ c'.broken = c.broken ∧
    c'.vfs.pendingFree = [] ∧ c'.vfs.dirty = false ∧
    c.vfs.pendingFree.length ≤ c'.vfs.tree.freeChunks.length) ?_
    (fun _ _ hp h => ⟨h.1, h.2.1, h.2.2.1, h.2.2.2.1, h.2.2.2.2, hfloor hp⟩) fun _ _ _ he => he
  refine runs_get ?_
  refine runs_bind (runs_fromExcept ?_ ?_)
  · intro _ hvalid
    have hvalid := validate_iff.mp hvalid
    refine runs_bind (runs_mono allocChunkGen_runs ?_ ?_)
    · rintro g c₁ - ⟨-, -, rfl⟩
      refine runs_bind (runs_modify (@Micro.upgradeHeader P f c.flight c.broken _) rfl ?_)
      refine runs_bind (runs_modify (@Micro.upgradeToV4 P f c.flight c.broken _) rfl ?_)
      refine runs_bind (runs_mono (encodeMetadata_runs ?_ ?_) ?_ fun _ _ _ he => he)
      · show 0 < (upgradeToV4 (upgradeHeader _)).tree.nextChunkGen
        rw [upgraded_tree]
        exact Nat.succ_pos _
      · intro g i hi r hr
        have hi : (upgradeToV4 (upgradeHeader _)).tree.inodes.get? g = some i := hi
        rw [upgraded_tree] at hi
        exact hvalid.fits hi hr
      rintro blob c₂ - ⟨hframe, rfl, hprep⟩
      have hflight : c₂.flight = c.flight := hframe.flight
      have hbroken : c₂.broken = c.broken := hframe.broken
      have hpending : c.vfs.pendingFree.length ≤ c₂.vfs.pendingFree.length := by
        refine le_trans (le_of_eq ?_) hframe.pending
        show _ = List.length (upgradeToV4 (upgradeHeader _)).pendingFree
        rw [upgraded_pending]
        rfl
      refine runs_of_wp ?_
      have hb₂ : c₂.broken = [] ∨ P.midFlush := by
        rw [hbroken]
        exact hb
      have hspec := @publish_spec c₂.vfs
      unfold wp at hspec ⊢
      cases hr : publishMetadata c₂.vfs.blobOf c₂.vfs with
      | ok a s' =>
          rw [hr] at hspec
          refine ⟨⟨c₂.flight, c₂.broken, s'⟩, rfl,
            ReflTransGen.single (Micro.publish hb₂ (Or.inl ⟨a, hr⟩) hprep), hflight, hbroken,
            hspec.2.1, hspec.2.2.2.1, ?_⟩
          rw [hspec.2.2.1, List.length_append]
          omega
      | error e s' =>
          rw [hr] at hspec
          exact ⟨⟨c₂.flight, c₂.broken, s'⟩, rfl,
            ReflTransGen.single (Micro.publish hb₂ (Or.inr ⟨e, hr⟩) hprep), hspec.1⟩
    · rintro e c₁ - ⟨rfl, -⟩
      exact ⟨nofun, nofun⟩
  · intro e he
    exact validateMetadataTree_plain he

/-- Whether a flush has anything to commit. -/
def commits (s : Vfs) : Prop :=
  s.toleratedInodes = [] ∧ (s.dirty = true ∨ s.container.metadataRecovered = true)

/-- What a flush that returned has done. -/
def Flushed (c c' : Cfg) : Prop :=
  c'.flight = c.flight ∧ c'.broken = c.broken ∧
    ((¬ c.vfs.commits ∧ c'.vfs = c.vfs) ∨ (c.vfs.commits ∧ c'.vfs.pendingFree = []))

theorem flush_runs (hb : c.vfs.commits → c.broken = [] ∨ P.midFlush) :
    Runs P f c flush (fun _ c' => Flushed c c') (fun e _ => e.Plain) := by
  unfold flush
  refine runs_get ?_
  refine runs_ite (fun htol => ?_) fun htol => ?_
  · refine runs_ite (fun _ => runs_throw ⟨nofun, nofun⟩) fun _ => ?_
    exact runs_pure ⟨rfl, rfl, Or.inl ⟨fun h => htol h.1, rfl⟩⟩
  · have htol : c.vfs.toleratedInodes = [] := not_not.mp htol
    refine runs_ite (fun hclean => ?_) fun hclean => ?_
    · refine runs_pure ⟨rfl, rfl, Or.inl ⟨?_, rfl⟩⟩
      rintro ⟨-, hd | hr⟩
      · rw [hclean.1] at hd
        cases hd
      · rw [hclean.2] at hr
        cases hr
    · have hcommits : c.vfs.commits := by
        refine ⟨htol, ?_⟩
        by_contra hno
        rw [not_or, Bool.not_eq_true, Bool.not_eq_true] at hno
        exact hclean hno
      exact runs_mono (commitMetadata_runs (hb hcommits))
        (fun _ _ _ h => ⟨h.1, h.2.1, Or.inr ⟨hcommits, h.2.2.1⟩⟩) fun _ _ _ he => he

/-- A flush that commits turns the waiting slots over. -/
theorem flush_supplies {s : Vfs} :
    wp flush (fun _ s' => s.commits → Supplied s s') (fun _ _ => True) s := by
  unfold flush
  rw [wp_bind, wp_get]
  split
  · next htol =>
      split
      · exact trivial
      · exact fun hcom => absurd hcom.1 htol
  · split
    · next hclean =>
        rintro ⟨-, hd | hr⟩
        · rw [hclean.1] at hd
          cases hd
        · rw [hclean.2] at hr
          cases hr
    · have hruns := @commitMetadata_runs Permit.any 0 ⟨[], [], s⟩ (Or.inl rfl)
      exact wp_of_runs hruns (fun _ _ _ h _ => h.2.2.2.2) fun _ _ _ _ => trivial

/-- The slots in flight stay in flight, also when the flush fails. -/
theorem flush_keeps (hb : c.vfs.commits → c.broken = [] ∨ P.midFlush) :
    Runs P f c flush (fun _ c' => Flushed c c')
      (fun e c' => e.Plain ∧ ∀ x, c.flight.count x ≤ c'.flight.count x) := by
  have hruns := @flush_runs P f ⟨[], c.broken, c.vfs⟩ hb
  refine runs_mono (Runs.also hruns c.flight) ?_ ?_
  · rintro _ c' - ⟨c₁, ⟨hf, hbr, hmode⟩, rfl⟩
    have hf : c₁.flight = [] := hf
    refine ⟨?_, hbr, hmode⟩
    show c₁.flight ++ c.flight = c.flight
    rw [hf, List.nil_append]
  · rintro e c' - ⟨c₁, he, rfl⟩
    refine ⟨he, fun x => ?_⟩
    show c.flight.count x ≤ (c₁.flight ++ c.flight).count x
    rw [List.count_append]
    omega

/-- A flush writes to no slot of a data chunk and to none in flight. -/
theorem flush_slots {s : Vfs} {x : ChunkId} (hg : Guarded s x) :
    wp flush (fun _ s' => s'.container.slots x = s.container.slots x)
      (fun _ s' => s'.container.slots x = s.container.slots x) s := by
  have hruns := @flush_runs ⟨fun _ => False, True⟩ 0 ⟨[], [], s⟩ fun _ => Or.inl rfl
  refine wp_of_runs hruns ?_ ?_
  · intro _ c' hp _
    exact Guarded.path (fun _ => id) hp hg List.not_mem_nil
  · intro _ c' hp _
    exact Guarded.path (fun _ => id) hp hg List.not_mem_nil

end Vfs

end Luksbox
