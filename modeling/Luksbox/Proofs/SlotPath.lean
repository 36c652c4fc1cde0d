import Luksbox.Proofs.FlushPath

/-!
# Taking and rewriting slots along a path

`alloc_slot` and the two ways of rewriting a chunk, as paths. A call gets from
one configuration to the next calmly, which uses up a slot for each one it
takes, or through a flush that recycles: that one needs a full vault and enough
retired slots, and leaves none of these waiting.

What may be rewritten in place is granted by the caller (`MayRewrite`): for a
chunk that is younger than the last flush, and for any chunk once the vault is
full.
-/

namespace Luksbox

open Lib Relation

/-- There is a limit, nothing is free and one more slot would exceed it. -/
def Full (s : Vfs) : Prop :=
  s.maxVaultSize ≠ 0 ∧ s.tree.freeChunks = [] ∧
    ∃ stop, s.slotEnd s.tree.nextChunkId = .ok stop ∧ s.maxVaultSize < stop

/-- And enough slots are waiting for a flush to make it worth while. -/
def Recycles (recycleMin : Nat) (s : Vfs) : Prop :=
  Full s ∧ max recycleMin 1 ≤ s.pendingFree.length

/-- How many slots a limit leaves: the free ones, and those that fit between the
end and the maximum size. -/
def Vfs.room (s : Vfs) : Nat :=
  s.tree.freeChunks.length +
    ((s.maxVaultSize - s.dataOffset) / chunkSlotSize - s.tree.nextChunkId)

/-- The limit leaves one more slot. -/
def Vfs.HasSlot (s : Vfs) : Prop :=
  s.tree.freeChunks ≠ [] ∨
    s.tree.nextChunkId < (s.maxVaultSize - s.dataOffset) / chunkSlotSize

/-- The slots of data chunks and those in flight are as they were. -/
def SlotsKept (c c' : Cfg) : Prop :=
  ∀ x, Guarded c.vfs x → c'.vfs.container.slots x = c.vfs.container.slots x

/-- No flush in between: the room shrinks by what is in flight, and under a limit
it pays for all of that. -/
structure Calm (c c' : Cfg) : Prop where
  pending : c'.vfs.pendingFree = c.vfs.pendingFree
  floor : c'.vfs.cowFloorGen = c.vfs.cowFloorGen
  dirty : c'.vfs.dirty = c.vfs.dirty
  recovered : c'.vfs.container.metadataRecovered = c.vfs.container.metadataRecovered
  limit : c'.vfs.maxVaultSize = c.vfs.maxVaultSize
  room : c.vfs.room + c.flight.length ≤ c'.vfs.room + c'.flight.length
  paid : c.vfs.maxVaultSize ≠ 0 →
    c'.vfs.room + c'.flight.length ≤ c.vfs.room + c.flight.length

/-- A flush in between, which turned the waiting slots into free ones and put
all chunks below the floor. -/
structure Recycled (recycleMin : Nat) (c c' : Cfg) : Prop where
  recycles : Recycles recycleMin c.vfs
  commits : c.vfs.commits
  pending : c'.vfs.pendingFree = []
  room : c.vfs.pendingFree.length + c.flight.length ≤ c'.vfs.room + c'.flight.length
  floor : c.vfs.tree.nextChunkGen ≤ c'.vfs.cowFloorGen

namespace Calm

variable {c c' c'' : Cfg}

theorem refl : Calm c c := ⟨rfl, rfl, rfl, rfl, rfl, le_refl _, fun _ => le_refl _⟩

theorem trans (h : Calm c c') (h' : Calm c' c'') : Calm c c'' :=
  ⟨h'.pending.trans h.pending, h'.floor.trans h.floor, h'.dirty.trans h.dirty,
    h'.recovered.trans h.recovered, h'.limit.trans h.limit, h.room.trans h'.room,
    fun hmax => (h'.paid (h.limit ▸ hmax)).trans (h.paid hmax)⟩

theorem of_steady (h : c.Steady c') (hmax : c'.vfs.maxVaultSize = c.vfs.maxVaultSize) :
    Calm c c' := by
  have hroom : c'.vfs.room + c'.flight.length = c.vfs.room + c.flight.length := by
    unfold Vfs.room Vfs.dataOffset
    rw [h.flight, h.free, h.next, hmax, h.still.header]
  exact ⟨h.still.pendingFree, h.still.floor, h.still.dirty, h.still.recovered, hmax,
    le_of_eq hroom.symm, fun _ => le_of_eq hroom⟩

theorem take {id : ChunkId} {t : DirectoryTree} (ht : c.vfs.tree.allocChunkId = some (id, t))
    (hslot : c.vfs.maxVaultSize ≠ 0 → c.vfs.HasSlot) :
    Calm c ⟨id :: c.flight, c.broken, c.vfs.withTree t⟩ where
  pending := rfl
  floor := rfl
  dirty := rfl
  recovered := rfl
  limit := rfl
  paid := by
    intro hmax
    unfold Vfs.room
    rw [List.length_cons]
    show t.freeChunks.length +
        ((c.vfs.maxVaultSize - c.vfs.dataOffset) / chunkSlotSize - t.nextChunkId) +
          (c.flight.length + 1) ≤
      c.vfs.tree.freeChunks.length +
        ((c.vfs.maxVaultSize - c.vfs.dataOffset) / chunkSlotSize - c.vfs.tree.nextChunkId) +
          c.flight.length
    rcases allocChunkId_cases ht with ⟨hfree, ht⟩ | ⟨hfree, -, -, ht⟩
    · have hnext : t.nextChunkId = c.vfs.tree.nextChunkId := by rw [ht]
      rw [hfree, hnext, List.length_append, List.length_singleton]
      omega
    · have hnext : t.nextChunkId = c.vfs.tree.nextChunkId + 1 := by rw [ht]
      have hfree' : t.freeChunks = c.vfs.tree.freeChunks := by rw [ht]
      have hlt := (hslot hmax).resolve_left (not_not.mpr hfree)
      rw [hfree', hnext]
      lia
  room := by
    unfold Vfs.room
    rw [List.length_cons]
    show c.vfs.tree.freeChunks.length +
        ((c.vfs.maxVaultSize - c.vfs.dataOffset) / chunkSlotSize - c.vfs.tree.nextChunkId) +
          c.flight.length ≤
      t.freeChunks.length +
        ((c.vfs.maxVaultSize - c.vfs.dataOffset) / chunkSlotSize - t.nextChunkId) +
          (c.flight.length + 1)
    rcases allocChunkId_cases ht with ⟨hfree, ht⟩ | ⟨hfree, -, -, ht⟩
    · have hnext : t.nextChunkId = c.vfs.tree.nextChunkId := by rw [ht]
      rw [hfree, hnext, List.length_append, List.length_singleton]
      omega
    · have hnext : t.nextChunkId = c.vfs.tree.nextChunkId + 1 := by rw [ht]
      have hfree' : t.freeChunks = c.vfs.tree.freeChunks := by rw [ht]
      rw [hfree', hnext]
      lia

theorem commits (h : Calm c c') (htol : c'.vfs.toleratedInodes = c.vfs.toleratedInodes) :
    c'.vfs.commits ↔ c.vfs.commits := by
  unfold Vfs.commits
  rw [h.dirty, h.recovered, htol]

end Calm

namespace Recycled

variable {recycleMin : Nat} {c c' c'' : Cfg}

theorem trans_calm (h : Recycled recycleMin c c') (h' : Calm c' c'') : Recycled recycleMin c c'' :=
  ⟨h.recycles, h.commits, h'.pending.trans h.pending, h.room.trans h'.room, by
    rw [h'.floor]
    exact h.floor⟩

/-- A generation is taken first. -/
theorem of_bumpGen (h : Recycled recycleMin c.bumpGen c') : Recycled recycleMin c c' :=
  ⟨h.recycles, h.commits, h.pending, h.room, (Nat.le_succ _).trans h.floor⟩

end Recycled

/-- A full vault has no room. -/
theorem Full.room {s : Vfs} (h : Full s) : s.room = 0 := by
  obtain ⟨hmax, hfree, stop, hstop, hlt⟩ := h
  unfold Vfs.slotEnd at hstop
  obtain ⟨off, hoff, hstop⟩ := except_bind_eq_ok.mp hstop
  split at hstop
  · cases hstop
  · injection hstop with hstop
    obtain ⟨hoff, -⟩ := Container.slotOffset_eq_ok hoff
    have hdiv : (s.maxVaultSize - s.dataOffset) / chunkSlotSize ≤ s.tree.nextChunkId := by
      rw [Nat.div_le_iff_le_mul_add_pred (by decide)]
      have hslot : 0 < chunkSlotSize := by decide
      have hcomm := Nat.mul_comm chunkSlotSize s.tree.nextChunkId
      omega
    unfold Vfs.room
    rw [hfree, List.length_nil, Nat.sub_eq_zero_of_le hdiv]

namespace Vfs

variable {P : Permit} {f : FileId} {c : Cfg}

theorem slotEnd_error {s : Vfs} {id : ChunkId} {e : Failure} (h : s.slotEnd id = .error e) :
    e.Plain := by
  unfold slotEnd at h
  cases hoff : slotOffset s.dataOffset id with
  | error e' =>
      rw [hoff] at h
      injection h with h
      rw [← h, Container.slotOffset_plain hoff]
      exact ⟨nofun, nofun⟩
  | ok off =>
      rw [hoff] at h
      simp only [bind, Except.bind] at h
      split at h
      · injection h with h
        rw [← h]
        exact ⟨nofun, nofun⟩
      · cases h

theorem overLimit_runs {E : Failure → Cfg → Prop} (hE : ∀ e, e.Plain → E e c) :
    Runs P f c overLimit
      (fun past c' => c' = c ∧ ∃ stop, c.vfs.slotEnd c.vfs.tree.nextChunkId = .ok stop ∧
        past = decide (stop > c.vfs.maxVaultSize)) E := by
  unfold overLimit
  refine runs_get ?_
  refine runs_bind (runs_fromExcept ?_ fun e he => hE e (slotEnd_error he))
  intro stop hstop
  exact runs_pure ⟨rfl, stop, hstop, rfl⟩

/-- How allocation got on. -/
def Onward (recycleMin : Nat) (c c' : Cfg) : Prop := Calm c c' ∨ Recycled recycleMin c c'

/-- How it got stuck: there is nothing to recycle, or recycling was not enough. -/
def Stuck (recycleMin : Nat) (c c' : Cfg) : Prop :=
  (Calm c c' ∧ ¬ (Recycles recycleMin c'.vfs ∧ c'.vfs.commits)) ∨ Recycled recycleMin c c'

/-- Where allocation gives up: nothing in flight is lost, and if it was the
limit nothing else has changed either. -/
def AtLimit (recycleMin : Nat) (c : Cfg) (e : Failure) (c' : Cfg) : Prop :=
  e ≠ .panic ∧ (∀ x, c.flight.count x ≤ c'.flight.count x) ∧ ∀ n, e = .err (.vaultSizeLimit n) →
    c'.flight = c.flight ∧ c'.broken = c.broken ∧ Full c'.vfs ∧ SlotsKept c c' ∧
      Stuck recycleMin c c'

theorem AtLimit.of_plain {recycleMin : Nat} {e : Failure} {c' : Cfg} (h : e.Plain)
    (hle : ∀ x, c.flight.count x ≤ c'.flight.count x) : AtLimit recycleMin c e c' :=
  ⟨h.1, hle, fun n hn => absurd hn (h.2 n)⟩

/-- What taking a slot does. -/
structure TookSlot (recycleMin : Nat) (c : Cfg) (id : ChunkId) (c' : Cfg) : Prop where
  flight : c'.flight = id :: c.flight
  broken : c'.broken = c.broken
  kept : SlotsKept c c'
  onward : Onward recycleMin c c'

/-- Where a call is between the flush that recycles, if any, and the slot. -/
structure Ready (recycleMin : Nat) (c₀ c : Cfg) : Prop where
  flight : c.flight = c₀.flight
  broken : c.broken = c₀.broken
  kept : SlotsKept c₀ c
  onward : Onward recycleMin c₀ c

theorem Ready.refl {recycleMin : Nat} : Ready recycleMin c c :=
  ⟨rfl, rfl, fun _ _ => rfl, Or.inl Calm.refl⟩

theorem allocChunkId_took {recycleMin : Nat} {c₀ : Cfg} (h : Ready recycleMin c₀ c)
    (hslot : c.vfs.maxVaultSize ≠ 0 → c.vfs.HasSlot) :
    Runs P f c allocChunkId (TookSlot recycleMin c₀) (AtLimit recycleMin c₀) := by
  refine runs_mono allocChunkId_runs ?_ ?_
  · rintro id c' - ⟨t, ht, rfl⟩
    have htake := Calm.take ht hslot
    refine ⟨by rw [← h.flight], h.broken, fun x hx => h.kept x hx, ?_⟩
    exact h.onward.imp (fun hcalm => hcalm.trans htake) fun hrec => hrec.trans_calm htake
  · rintro e c' - ⟨rfl, rfl⟩
    exact ⟨nofun, fun x => by rw [h.flight], nofun⟩

/-- A slot that ends within the limit is one it leaves. -/
theorem hasSlot_of_slotEnd {s : Vfs} {stop : Nat} (h : s.slotEnd s.tree.nextChunkId = .ok stop)
    (hle : stop ≤ s.maxVaultSize) :
    s.tree.nextChunkId < (s.maxVaultSize - s.dataOffset) / chunkSlotSize := by
  unfold slotEnd at h
  obtain ⟨off, hoff, h⟩ := except_bind_eq_ok.mp h
  split at h
  · cases h
  · injection h with h
    obtain ⟨hoff, -⟩ := Container.slotOffset_eq_ok hoff
    rw [Nat.lt_iff_add_one_le, Nat.le_div_iff_mul_le (by decide), Nat.succ_mul]
    omega

theorem checkLimit_took {recycleMin : Nat} {c₀ : Cfg} (h : Ready recycleMin c₀ c)
    (hmax : c.vfs.maxVaultSize ≠ 0) (hstuck : Full c.vfs → Stuck recycleMin c₀ c) :
    Runs P f c (do checkLimit; allocChunkId) (TookSlot recycleMin c₀) (AtLimit recycleMin c₀) := by
  refine runs_bind ?_
  unfold checkLimit
  refine runs_get ?_
  refine runs_ite (fun hfree => ?_) fun hfree =>
    runs_pure (allocChunkId_took h fun _ => Or.inl hfree)
  refine runs_bind (runs_mono
    (overLimit_runs fun e he => AtLimit.of_plain he fun x => by rw [h.flight]) ?_ fun _ _ _ he => he)
  rintro past c' - ⟨rfl, stop, hstop, rfl⟩
  refine runs_ite (fun hover => ?_) fun hover =>
    runs_pure (allocChunkId_took h fun _ => Or.inr (hasSlot_of_slotEnd hstop (by simpa using hover)))
  have hfull : Full c'.vfs := ⟨hmax, hfree, stop, hstop, by simpa using hover⟩
  exact runs_throw ⟨nofun, fun x => by rw [h.flight],
    fun n _ => ⟨h.flight, h.broken, hfull, h.kept, hstuck hfull⟩⟩

theorem allocSlot_runs {recycleMin : Nat}
    (hmid : Recycles recycleMin c.vfs → c.vfs.commits → c.broken = [] ∨ P.midFlush) :
    Runs P f c (allocSlot recycleMin) (TookSlot recycleMin c) (AtLimit recycleMin c) := by
  unfold allocSlot
  refine runs_get ?_
  refine runs_ite (fun hlim => ?_) fun hlim => allocChunkId_took Ready.refl
    fun hmax => Or.inl fun hfree => hlim ⟨hmax, hfree⟩
  refine runs_bind (runs_mono
    (overLimit_runs fun e he => AtLimit.of_plain he fun _ => le_refl _) ?_ fun _ _ _ he => he)
  rintro past c' - ⟨rfl, stop, hstop, rfl⟩
  refine runs_ite (fun hover => ?_) fun hover => ?_
  · -- the flush that recycles
    have hrec : Recycles recycleMin c'.vfs :=
      ⟨⟨hlim.1, hlim.2, stop, hstop, by simpa using hover.1⟩, hover.2⟩
    have hslots : wp flush
        (fun _ s' => (∀ x, Guarded c'.vfs x → s'.container.slots x = c'.vfs.container.slots x) ∧
          (c'.vfs.commits → Supplied c'.vfs s')) (fun _ _ => True) c'.vfs := by
      unfold wp
      cases hr : flush c'.vfs with
      | ok a s' => exact ⟨fun x hx => of_wp_ok (flush_slots hx) hr, of_wp_ok flush_supplies hr⟩
      | error e s' => trivial
    refine runs_bind (runs_mono (runs_and_wp (flush_keeps (hmid hrec)) hslots) ?_ ?_)
    · rintro _ c₁ hp ⟨⟨hf, hb, hmode⟩, hs, hsupply⟩
      have hlimit := (Path.frame hp).maxVaultSize
      have hmax : c₁.vfs.maxVaultSize ≠ 0 := by
        rw [hlimit]
        exact hlim.1
      rcases hmode with ⟨hno, hv⟩ | ⟨hcom, hpend⟩
      · have hcalm : Calm c' c₁ := ⟨by rw [hv], by rw [hv], by rw [hv], by rw [hv], hlimit,
          by rw [hv, hf], fun _ => by rw [hv, hf]⟩
        exact checkLimit_took ⟨hf, hb, hs, Or.inl hcalm⟩ hmax
          fun _ => Or.inl ⟨hcalm, fun h => hno (hv ▸ h.2)⟩
      · obtain ⟨hfree, hfloor⟩ := hsupply hcom
        have hrecycled : Recycled recycleMin c' c₁ := by
          refine ⟨hrec, hcom, hpend, ?_, hfloor⟩
          rw [hf]
          unfold room
          omega
        exact checkLimit_took ⟨hf, hb, hs, Or.inr hrecycled⟩ hmax fun _ => Or.inr hrecycled
    · rintro e c₁ - ⟨⟨he, hle⟩, -⟩
      exact AtLimit.of_plain he hle
  · refine checkLimit_took Ready.refl hlim.1 fun hfull => Or.inl ⟨Calm.refl, ?_⟩
    rintro ⟨⟨-, hlen⟩, -⟩
    obtain ⟨-, -, stop', hstop', hlt⟩ := hfull
    rw [hstop] at hstop'
    injection hstop' with hstop'
    refine hover ⟨?_, hlen⟩
    rw [hstop']
    exact decide_eq_true hlt

/-! ## Rewriting a chunk -/

/-- The slot a chunk of file `f` is sealed into. -/
def sealedAs (s : Vfs) (f : FileId) (idx generation : Nat) (pt : Chunk) : Slot :=
  Slot.sealed (s.container.fileKey f) (chunkAad f (idx % 2 ^ 32) generation) pt

theorem calm_bumpGen : Calm c c.bumpGen := Calm.of_steady Cfg.steady_bumpGen rfl

theorem Onward.of_bumpGen {recycleMin : Nat} {c' : Cfg} (h : Onward recycleMin c.bumpGen c') :
    Onward recycleMin c c' :=
  h.imp calm_bumpGen.trans Recycled.of_bumpGen

theorem Stuck.of_bumpGen {recycleMin : Nat} {c' : Cfg} (h : Stuck recycleMin c.bumpGen c') :
    Stuck recycleMin c c' :=
  h.imp (fun h => ⟨calm_bumpGen.trans h.1, h.2⟩) Recycled.of_bumpGen

theorem SlotsKept.of_bumpGen {c' : Cfg} (h : SlotsKept c.bumpGen c') : SlotsKept c c' :=
  fun x hx => h x ⟨hx.free, hx.pending, hx.lists, hx.bound⟩

/-- How a rewrite of a chunk got on: only for one below the floor does it flush. -/
def RewroteOnward (g : Nat) (c c' : Cfg) : Prop :=
  Calm c c' ∨ (g < c.vfs.cowFloorGen ∧ Recycled pendingFreeRecycleMin c c')

theorem RewroteOnward.trans_calm {g : Nat} {c' c'' : Cfg} (h : RewroteOnward g c c')
    (h' : Calm c' c'') : RewroteOnward g c c'' := by
  rcases h with hcalm | ⟨hold, hrec⟩
  · exact Or.inl (hcalm.trans h')
  · exact Or.inr ⟨hold, hrec.trans_calm h'⟩

theorem Onward.rewrote {g : Nat} {c' : Cfg} (h : Onward pendingFreeRecycleMin c c')
    (hold : g < c.vfs.cowFloorGen) : RewroteOnward g c c' := h.imp id fun hrec => ⟨hold, hrec⟩

/-- The target is the chunk's own slot, for one of two reasons, or a new one. -/
theorem rewriteTarget_runs {cur : ChunkRef}
    (hmid : cur.generation < c.vfs.cowFloorGen → Recycles pendingFreeRecycleMin c.vfs →
      c.vfs.commits → c.broken = [] ∨ P.midFlush) :
    Runs P f c (rewriteTarget cur)
      (fun r c' => (r.1.generation = c.vfs.tree.nextChunkGen ∧
          r.1.generation < c'.vfs.tree.nextChunkGen) ∧ c'.broken = c.broken ∧ SlotsKept c c' ∧
        ((r.2 = none ∧ r.1.id = cur.id ∧ c'.flight = c.flight ∧
            ((c.vfs.cowFloorGen ≤ cur.generation ∧ Calm c c') ∨
              (cur.generation < c.vfs.cowFloorGen ∧ Full c'.vfs ∧
                Stuck pendingFreeRecycleMin c c'))) ∨
          (r.2 = some cur.id ∧ c'.flight = r.1.id :: c.flight ∧
            cur.generation < c.vfs.cowFloorGen ∧ RewroteOnward cur.generation c c')))
      (fun e _ => e ≠ .panic) := by
  unfold rewriteTarget
  refine runs_bind (runs_mono allocChunkGen_runs ?_ ?_)
  · rintro g c₁ - ⟨rfl, -, rfl⟩
    refine runs_get ?_
    refine runs_ite (fun hfresh => ?_) fun hfresh => ?_
    · exact runs_pure ⟨⟨rfl, Nat.lt_succ_self _⟩, rfl, fun _ _ => rfl,
        Or.inl ⟨rfl, rfl, rfl, Or.inl ⟨hfresh, calm_bumpGen⟩⟩⟩
    · have hold : cur.generation < c.vfs.cowFloorGen := Nat.not_le.mp hfresh
      have hmid₁ : Recycles pendingFreeRecycleMin c.bumpGen.vfs → c.bumpGen.vfs.commits →
          c.bumpGen.broken = [] ∨ P.midFlush := hmid hold
      refine runs_bind (runs_attempt (runs_mono (allocSlot_runs hmid₁) ?_ ?_))
      · rintro id c₂ hp₂ htook
        exact runs_pure ⟨⟨rfl, (Path.frame hp₂).nextChunkGen⟩, htook.broken, SlotsKept.of_bumpGen htook.kept,
          Or.inr ⟨rfl, htook.flight, hold, htook.onward.of_bumpGen.rewrote hold⟩⟩
      · rintro e c₂ hp₂ ⟨hnp, -, hlim⟩
        cases e with
        | panic => exact absurd rfl hnp
        | err e =>
            cases e with
            | vaultSizeLimit n =>
                obtain ⟨hf, hb, hfull, hs, hstuck⟩ := hlim n rfl
                exact runs_pure ⟨⟨rfl, (Path.frame hp₂).nextChunkGen⟩, hb, SlotsKept.of_bumpGen hs,
                  Or.inl ⟨rfl, rfl, hf, Or.inr ⟨hold, hfull, hstuck.of_bumpGen⟩⟩⟩
            | _ => exact runs_throw hnp
  · rintro e c₁ - ⟨rfl, -⟩
    exact nofun

theorem inPlace_path {x : Seal} {io : List Fault} {off id written : Nat} {slot : Slot} {i : Inode}
    (hi : c.vfs.tree.inodes.get? f = some i) (hid : id ∈ i.dataIds) (hp : P.inPlace id) :
    Path P f c
      ⟨c.flight, id :: c.broken, ((c.withSeal x).withIo io).vfs.stored off id slot written⟩ :=
  Cfg.path_withSeal.tail (Micro.inPlace off slot written hi hid hp)

/-- A write over a chunk of the file itself. -/
theorem writeChunk_inPlace_runs {idx : Nat} {chunk : ChunkRef} {pt : Chunk} {i : Inode}
    (hi : c.vfs.tree.inodes.get? f = some i) (hid : chunk.id ∈ i.dataIds)
    (hp : P.inPlace chunk.id) :
    Runs P f c (writeChunk f idx chunk pt)
      (fun _ c' => c'.flight = c.flight ∧ c'.broken = chunk.id :: c.broken ∧
        c'.vfs.container.slots = Function.update c.vfs.container.slots chunk.id
          (c.vfs.sealedAs f idx chunk.generation pt) ∧ Calm c c')
      (fun e _ => e.Plain) := by
  refine runs_get ?_
  refine runs_of_wp ?_
  rw [wp_onContainer]
  refine Container.writeChunk_spec ?_ ?_ ?_ ?_
  · intro io off _
    exact ⟨_, rfl, @inPlace_path P f c _ io off _ _ _ i hi hid hp, rfl, rfl, rfl,
      ⟨rfl, rfl, rfl, rfl, rfl, le_refl _, fun _ => le_refl _⟩⟩
  · intro e he
    exact ⟨c, rfl, ReflTransGen.refl, he⟩
  · intro io e he
    exact ⟨(c.withSeal _).withIo io, rfl, Cfg.path_withSeal, he⟩
  · intro io off left written e he
    exact ⟨_, rfl, @inPlace_path P f c _ io off _ written left i hi hid hp, he⟩

/-- What a rewrite that returned has done: the new ref opens to `pt`, every
other slot that matters is as before, and the call's slots are accounted for.
`early` holds if a chunk of the file was overwritten before any flush. -/
structure Rewrote (early : Prop) (c : Cfg) (f : FileId) (idx : Nat) (cur : ChunkRef) (pt : Chunk)
    (newRef : ChunkRef) (old : Option ChunkId) (c' : Cfg) : Prop where
  generation : newRef.generation = c.vfs.tree.nextChunkGen
  bumped : newRef.generation < c'.vfs.tree.nextChunkGen
  slot : c'.vfs.container.slots newRef.id = c.vfs.sealedAs f idx newRef.generation pt
  others : ∀ x, Guarded c.vfs x → x ≠ newRef.id →
    c'.vfs.container.slots x = c.vfs.container.slots x
  onward : RewroteOnward cur.generation c c'
  place : (old = none ∧ newRef.id = cur.id ∧ c'.flight = c.flight ∧
      ((cur.id ∈ c.flight ∧ c'.broken = c.broken) ∨
        (cur.id ∉ c.flight ∧ c'.broken = cur.id :: c.broken ∧
          (early ∨ (cur.generation < c.vfs.cowFloorGen ∧
            Recycled pendingFreeRecycleMin c c'))))) ∨
    (old = some cur.id ∧ c'.flight = newRef.id :: c.flight ∧ c'.broken = c.broken ∧
      cur.generation < c.vfs.cowFloorGen)

/-- The chunk may be overwritten: it is in flight, or it is the file's own and
whatever would put it in place is granted. -/
def MayRewrite (P : Permit) (early : Prop) (f : FileId) (c : Cfg) (cur : ChunkRef) : Prop :=
  cur.id ∈ c.flight ∨
    ((∃ i, c.vfs.tree.inodes.get? f = some i ∧ cur.id ∈ i.dataIds) ∧
      (c.vfs.cowFloorGen ≤ cur.generation → P.inPlace cur.id ∧ early) ∧
      ∀ c', Path P f c c' → c'.flight = c.flight → cur.generation < c.vfs.cowFloorGen →
        Full c'.vfs → Stuck pendingFreeRecycleMin c c' →
        P.inPlace cur.id ∧ (early ∨ Recycled pendingFreeRecycleMin c c'))

theorem update_others {slots : ChunkId → Slot} {x id : ChunkId} {v : Slot} (h : x ≠ id) :
    Function.update slots id v x = slots x := Function.update_of_ne h _ _

/-- Slots in flight are handed back. -/
theorem pushPending_runs {ids L : List ChunkId} {Q : Unit → Cfg → Prop} {E : Failure → Cfg → Prop}
    (h : ∀ x, L.count x + ids.count x ≤ c.flight.count x)
    (hQ : Q () ⟨L, c.broken, { c.vfs with pendingFree := c.vfs.pendingFree ++ ids }⟩) :
    Runs P f c (pushPending ids) Q E :=
  ⟨_, rfl, ReflTransGen.single (Micro.give ids h), hQ⟩

theorem Stuck.onward {recycleMin : Nat} {c' : Cfg} (h : Stuck recycleMin c c') :
    Onward recycleMin c c' := h.imp And.left id

/-- A write to a slot in flight, after the target was chosen. -/
theorem writeTarget_runs {idx : Nat} {newRef : ChunkRef} {pt : Chunk} {c₀ : Cfg}
    (hin : newRef.id ∈ c.flight) (hs : SlotsKept c₀ c)
    (hkey : c.vfs.sealedAs f idx newRef.generation pt =
      c₀.vfs.sealedAs f idx newRef.generation pt) :
    Runs P f c (writeChunk f idx newRef pt)
      (fun _ c' => c'.flight = c.flight ∧ c'.broken = c.broken ∧ Calm c c' ∧
        c'.vfs.container.slots newRef.id = c₀.vfs.sealedAs f idx newRef.generation pt ∧
        ∀ x, Guarded c₀.vfs x → x ≠ newRef.id →
          c'.vfs.container.slots x = c₀.vfs.container.slots x)
      (fun e c' => e.Plain ∧ c'.flight = c.flight) := by
  refine runs_mono (writeChunk_runs hin) ?_ fun e c' _ he => ⟨he.1, he.2.1.flight⟩
  rintro _ c' hp ⟨hst, hsl⟩
  refine ⟨hst.flight, hst.broken, Calm.of_steady hst (Path.frame hp).maxVaultSize, ?_, ?_⟩
  · rw [hsl, Function.update_self]
    exact hkey
  · intro x hx hne
    rw [hsl, update_others hne]
    exact hs x hx

theorem rewriteChunk_runs {idx : Nat} {cur : ChunkRef} {pt : Chunk} {early : Prop}
    (hmid : cur.generation < c.vfs.cowFloorGen → Recycles pendingFreeRecycleMin c.vfs →
      c.vfs.commits → c.broken = [] ∨ P.midFlush)
    (hmay : MayRewrite P early f c cur) :
    Runs P f c (rewriteChunk f idx cur pt)
      (fun r c' => Rewrote early c f idx cur pt r.1 r.2 c') (fun e _ => e ≠ .panic) := by
  unfold rewriteChunk
  refine runs_bind (runs_mono (rewriteTarget_runs hmid) ?_ fun _ _ _ he => he)
  rintro ⟨newRef, old⟩ c₁ hp₁ ⟨hgen, hb, hs, hcase⟩
  have hkey : ∀ g, c₁.vfs.sealedAs f idx g pt = c.vfs.sealedAs f idx g pt := by
    intro g
    unfold sealedAs
    rw [(Path.frame hp₁).fileKey]
  have hbump : ∀ {c₂ : Cfg}, Path P f c₁ c₂ → newRef.generation < c₂.vfs.tree.nextChunkGen :=
    fun hp₂ => hgen.2.trans_le (Path.frame hp₂).nextChunkGen
  rcases hcase with ⟨rfl, hid, hf, hwhy⟩ | ⟨rfl, hf, hold, hon⟩
  · have hid : newRef.id = cur.id := hid
    have hon : RewroteOnward cur.generation c c₁ :=
      hwhy.elim (fun h => Or.inl h.2) fun h => h.2.2.onward.rewrote h.1
    by_cases hin : cur.id ∈ c.flight
    · have hin₁ : newRef.id ∈ c₁.flight := by
        rw [hf, hid]
        exact hin
      refine runs_bind (runs_attempt (runs_mono (writeTarget_runs hin₁ hs (hkey _)) ?_ ?_))
      · rintro _ c₂ hp₂ ⟨hf₂, hb₂, hcalm, hsl, hoth⟩
        exact runs_pure ⟨hgen.1, hbump hp₂, hsl, hoth, hon.trans_calm hcalm,
          Or.inl ⟨rfl, hid, hf₂.trans hf, Or.inl ⟨hin, hb₂.trans hb⟩⟩⟩
      · rintro e c₂ - ⟨he, -⟩
        exact runs_throw he.1
    · obtain ⟨⟨i, hi, hdata⟩, hfresh, hfull⟩ := hmay.resolve_left hin
      obtain ⟨i₁, hi₁, hbare⟩ := (Path.frame hp₁).inode hi
      have hdata₁ : newRef.id ∈ i₁.dataIds := by
        unfold Inode.dataIds at hdata ⊢
        rw [hid, Inode.bare_chunks hbare]
        exact hdata
      have hperm : P.inPlace cur.id ∧ (early ∨ (cur.generation < c.vfs.cowFloorGen ∧
          Recycled pendingFreeRecycleMin c c₁)) := by
        rcases hwhy with ⟨hfr, -⟩ | ⟨hold, hfu, hstuck⟩
        · exact ⟨(hfresh hfr).1, Or.inl (hfresh hfr).2⟩
        · obtain ⟨hin₁, hwhen⟩ := hfull c₁ hp₁ hf hold hfu hstuck
          exact ⟨hin₁, hwhen.imp id fun hrec => ⟨hold, hrec⟩⟩
      have hperm₁ : P.inPlace newRef.id := by
        rw [hid]
        exact hperm.1
      refine runs_bind (runs_attempt (runs_mono (writeChunk_inPlace_runs hi₁ hdata₁ hperm₁) ?_ ?_))
      · rintro _ c₂ hp₂ ⟨hf₂, hb₂, hsl, hcalm⟩
        refine runs_pure ⟨hgen.1, hbump hp₂, ?_, ?_, hon.trans_calm hcalm,
          Or.inl ⟨rfl, hid, hf₂.trans hf, Or.inr ⟨hin, ?_, hperm.2.imp id ?_⟩⟩⟩
        · rw [hsl, Function.update_self]
          exact hkey _
        · intro x hx hne
          rw [hsl, update_others hne]
          exact hs x hx
        · rw [hb₂, hb, hid]
        · rintro ⟨hold, hrec⟩
          exact ⟨hold, hrec.trans_calm hcalm⟩
      · rintro e c₂ - he
        exact runs_throw he.1
  · have hin₁ : newRef.id ∈ c₁.flight := by
      rw [hf]
      exact List.mem_cons_self
    refine runs_bind (runs_attempt (runs_mono (writeTarget_runs hin₁ hs (hkey _)) ?_ ?_))
    · rintro _ c₂ hp₂ ⟨hf₂, hb₂, hcalm, hsl, hoth⟩
      exact runs_pure ⟨hgen.1, hbump hp₂, hsl, hoth, hon.trans_calm hcalm,
        Or.inr ⟨rfl, hf₂.trans hf, hb₂.trans hb, hold⟩⟩
    · rintro e c₂ - ⟨he, hf₂⟩
      refine runs_bind (pushPending_runs (L := c.flight) ?_ (runs_throw he.1))
      intro x
      rw [hf₂, hf]
      simp only [List.count_cons, List.count_nil]
      omega

end Vfs

end Luksbox
