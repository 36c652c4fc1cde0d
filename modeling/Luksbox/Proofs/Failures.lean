import Luksbox.Proofs.Shrinking

/-!
# What a failed write loses

`write` and `truncate` put the new refs into the inode last, so a call that
fails leaves the old refs, and copy-on-write leaves the old slots under them.
Two rewrites do not copy: a chunk at or above `cow_floor_gen` is rewritten in its
own slot, and so is any chunk once a vault with a maximum size is full. A call
that does so and fails later leaves a ref whose slot has another generation.

`Op.Spares` says that neither can happen to the chunks a call rewrites: they are
below the floor, and the limit, with what a flush inside the call recycles, leaves
a slot for each copy. A call that rewrites nothing, or that is refused before it
would, has no condition to meet, however full the vault is. What is left are
calls that take only steps that write to slots nothing refers to.
-/

namespace Luksbox

open Lib Relation

/-- A plan that overwrites nothing. -/
def Plan.spare : Plan where
  permit := ⟨fun _ => False, True⟩
  flushes := True
  early := False
  sooner := False
  copies := fun _ => True
  covers := fun _ => True
  grows := fun _ => True

/-- The vault has `need` slots for a call: no limit, room for them, or room with
the waiting slots, which are enough for a rewrite to recycle. -/
def Vfs.Supplies (s : Vfs) (need : Nat) : Prop :=
  s.maxVaultSize = 0 ∨ need ≤ s.room ∨
    (s.commits ∧ pendingFreeRecycleMin ≤ s.pendingFree.length ∧
      need ≤ s.room + s.pendingFree.length)

/-- The same for a `write`, which first flushes if many slots are waiting. -/
def Vfs.SuppliesWrite (s : Vfs) (need : Nat) : Prop :=
  (pendingFreeFlushThreshold ≤ s.pendingFree.length ∧ s.commits ∧
      (s.maxVaultSize = 0 ∨ need ≤ s.pendingFree.length)) ∨
    (¬ (pendingFreeFlushThreshold ≤ s.pendingFree.length ∧ s.commits) ∧ s.Supplies need)

/-- Chunks that are rewritten are copied: all of them are below the floor, and
there is a slot for each. -/
def Spared (s : Vfs) (supplied : Prop) (base : List ChunkRef) (touched : Nat → Prop) : Prop :=
  ∀ idx r, touched idx → base[idx]? = some r →
    r.generation < s.cowFloorGen ∧ r.generation < s.tree.nextChunkGen ∧ supplied

/-- A file cannot get `new` more chunks: they do not fit under the limit, and there
is nothing to recycle. -/
structure Vfs.CannotGrow (s : Vfs) (new : Nat) : Prop where
  limited : s.maxVaultSize ≠ 0
  full : s.room < new
  nothing : ¬ (s.commits ∧ s.pendingFree ≠ [])

/-- A chunk below the floor is below it when the call has begun. -/
theorem Vfs.Begun.below_floor {P : Permit} {f : FileId} {s : Vfs} {c₀ : Cfg} {oldReal g : Nat}
    (hb : Vfs.Begun P f s c₀ oldReal) (hfloor : g < s.cowFloorGen)
    (hnext : g < s.tree.nextChunkGen) : g < c₀.vfs.cowFloorGen := by
  rcases (Path.frame hb.path).floor with heq | hge
  · have heq : c₀.vfs.cowFloorGen = s.cowFloorGen := heq
    omega
  · have hge : s.tree.nextChunkGen ≤ c₀.vfs.cowFloorGen := hge
    omega

/-- The condition on a call that gets past its checks. A `write` extends the file
before it rewrites anything; `truncate` clears the end first, extends the file, and
writes the size header last. -/
def Op.Spares (s : Vfs) : Op → Prop
  | .write f offset buf => ∀ i oldReal count, s.toleratedInodes = [] →
      s.tree.inodes.get? f = some i → i.kind = .file → buf ≠ [] →
      offset + buf.length ≤ maxFileSize → s.sizeOf f = some oldReal →
      paddedChunkCount (requiredChunks (max oldReal (offset + buf.length)) s.hideSize)
        s.paddingOn = .ok count →
      (s.pendingFree.length < pendingFreeFlushThreshold → i.chunks.length < count →
        s.checkMetadataBudgetForChunks f (count - i.chunks.length) = .ok ()) →
      let w := Vfs.argsOf f offset buf oldReal i.chunks.length s.hideSize
      let last := Vfs.lastOf offset buf s.hideSize
      s.CannotGrow (count - i.chunks.length) ∨
        Spared s (s.SuppliesWrite (Vfs.writeNeeds w count last)) i.chunks (Vfs.writeTouches w last)
  | .truncate f newSize => ∀ i oldReal count, s.toleratedInodes = [] →
      s.tree.inodes.get? f = some i → i.kind = .file → newSize ≤ maxFileSize →
      s.sizeOf f = some oldReal →
      paddedChunkCount (requiredChunks newSize s.hideSize) s.paddingOn = .ok count →
      let base := i.chunks.take count
      (base.length < count → s.checkMetadataBudgetForChunks f (count - base.length) = .ok ()) →
      let cleared := Vfs.clearedChunks oldReal newSize s.hideSize base.length
      let takes := Vfs.truncateTakes oldReal newSize count s.hideSize base.length
      Spared s (s.Supplies cleared.length) base (· ∈ cleared) ∧
        (s.hideSize = true → s.CannotGrow (count - base.length) ∨
          Spared s (s.Supplies takes) base (· = 0))
  | _ => True

namespace Vfs

variable {s : Vfs} {f : FileId} {c₀ : Cfg} {P : Permit} {oldReal need new : Nat}

/-- What the vault has for a call it still has when the call has begun. -/
theorem Supplies.begun (h : s.Supplies need) (hframe : Frame s c₀.vfs)
    (hstart : Calm ⟨[], [], s⟩ c₀) (hflight : c₀.flight = []) : c₀.vfs.Supplies need := by
  have hroom := hstart.room
  rw [hflight] at hroom
  simp only [List.length_nil] at hroom
  have hpend : c₀.vfs.pendingFree = s.pendingFree := hstart.pending
  rcases h with hmax | hle | ⟨hcom, hmany, hle⟩
  · refine .inl ?_
    rw [hframe.maxVaultSize]
    exact hmax
  · exact .inr (.inl (by omega))
  · refine .inr (.inr ⟨(hstart.commits hframe.tolerated).mpr hcom, ?_, ?_⟩)
    · rw [hpend]
      exact hmany
    · rw [hpend]
      omega

theorem SuppliesWrite.begun (h : s.SuppliesWrite need) (hb : Begun P f s c₀ oldReal)
    (hempty : Emptied s c₀) : c₀.vfs.Supplies need := by
  have hframe := Path.frame hb.path
  rcases h with ⟨hmany, hcom, h⟩ | ⟨hno, h⟩
  · have hnone := hempty hmany hcom
    rcases h with hmax | hle
    · refine .inl ?_
      rw [hframe.maxVaultSize]
      exact hmax
    · rcases hb.how with ⟨hstart, -⟩ | ⟨-, -, -, hroom⟩
      · -- nothing waits although nothing was flushed
        have hpend : c₀.vfs.pendingFree = s.pendingFree := hstart.pending
        rw [← hpend, hnone, List.length_nil] at hmany
        exact absurd hmany (by decide)
      · exact .inr (.inl (hle.trans hroom))
  · rcases hb.how with ⟨hstart, -⟩ | ⟨hmany, hcom, -⟩
    · exact h.begun hframe hstart hb.flight
    · exact absurd ⟨hmany, hcom⟩ hno

/-- A supply that lasts leaves no full vault before the last slot is taken, unless
there is something to recycle. -/
theorem Supplies.not_full (h : c₀.vfs.Supplies need) {c : Cfg} (hframe : Frame c₀.vfs c.vfs)
    (hcalm : Calm c₀ c) (hlen : c.flight.length < need) (hfull : Full c.vfs) :
    Recycles pendingFreeRecycleMin c.vfs ∧ c.vfs.commits := by
  have hroom := hcalm.room
  have hnone := hfull.room
  rcases h with hmax | hle | ⟨hcom, hmany, -⟩
  · refine absurd ?_ hfull.1
    rw [hframe.maxVaultSize]
    exact hmax
  · omega
  · refine ⟨⟨hfull, ?_⟩, (hcalm.commits hframe.tolerated).mpr hcom⟩
    have hmin : max pendingFreeRecycleMin 1 = pendingFreeRecycleMin := rfl
    rw [hcalm.pending, hmin]
    exact hmany

/-- And none at all after that. -/
theorem Supplies.not_full_since (h : c₀.vfs.Supplies need) {c : Cfg}
    (hframe : Frame c₀.vfs c.vfs) (hsince : Since c₀ c) (hlen : c.flight.length < need) :
    ¬ Full c.vfs := by
  intro hfull
  have hroom := hsince.room
  have hnone := hfull.room
  rcases h with hmax | hle | ⟨-, -, hle⟩
  · refine hfull.1 ?_
    rw [hframe.maxVaultSize]
    exact hmax
  · omega
  · omega

/-- The extension does not get through. -/
theorem CannotGrow.not_grown (h : s.CannotGrow new) (hb : Begun P f s c₀ oldReal) {p : Plan} :
    ¬ Grown p c₀ new := by
  rintro ⟨c, -, hmode, hnew⟩
  have hframe := Path.frame hb.path
  rcases hb.how with ⟨hstart, -⟩ | ⟨hmany, hcom, -⟩
  · rcases hmode with ⟨hcalm, -⟩ | ⟨-, hsince⟩
    · have hmax : c₀.vfs.maxVaultSize ≠ 0 := by
        rw [hframe.maxVaultSize]
        exact h.limited
      have hfirst := hstart.paid h.limited
      have hthen := hcalm.paid hmax
      have hfull := h.full
      rw [hb.flight] at hfirst hthen
      simp only [List.length_nil] at hfirst hthen
      omega
    · have hpend : c₀.vfs.pendingFree = s.pendingFree := hstart.pending
      refine h.nothing ⟨(hstart.commits hframe.tolerated).mp hsince.commits, ?_⟩
      rw [← hpend]
      exact hsince.waiting
  · refine h.nothing ⟨hcom, fun hnil => ?_⟩
    rw [hnil] at hmany
    exact absurd hmany (by decide)

end Vfs

/-- What a call is granted if it copies. -/
theorem Spared.grants {s : Vfs} {supplied : Prop} {P : Permit} {f : FileId} {c₀ : Cfg}
    {oldReal need : Nat} {base : List ChunkRef} {touched : Nat → Prop} {early : Prop}
    {copies : ChunkId → Prop} {grows : Nat → Prop} (h : Spared s supplied base touched) (hb : Vfs.Begun P f s c₀ oldReal)
    (hsupply : supplied → c₀.vfs.Supplies need) (hcopies : ∀ x, copies x) :
    Grants { Plan.spare with early := early, copies := copies, grows := grows } c₀ base touched
      need where
  copy := fun _ r _ _ _ => hcopies r.id
  fresh := by
    intro c _ _ _ idx r ht hr hfloor
    obtain ⟨hold, hnext, -⟩ := h idx r ht hr
    have hlt := hb.below_floor hold hnext
    omega
  full := fun c hframe hcalm hlen _ hfull hno idx r ht hr =>
    absurd ((hsupply (h idx r ht hr).2.2).not_full hframe hcalm hlen hfull) hno
  recycle := fun _ _ _ _ _ _ _ _ => ⟨trivial, fun _ => trivial⟩
  after := by
    intro _ c hframe hsince hlen idx r ht hr hwhy
    obtain ⟨-, hnext, hs⟩ := h idx r ht hr
    rcases hwhy with hfull | hfloor
    · exact (hsupply hs).not_full_since hframe hsince hlen hfull
    · have hrose := hsince.floor
      have hstart : s.tree.nextChunkGen ≤ c₀.vfs.tree.nextChunkGen :=
        (Path.frame hb.path).nextChunkGen
      omega

theorem extends_spare {c₀ : Cfg} {broken : List ChunkId} {need : Nat} :
    Extends (Plan.spare.first Plan.spare.grows) c₀ broken need :=
  fun _ _ _ _ _ _ _ _ _ => ⟨trivial, .inr trivial⟩

namespace Vfs

variable {s s' : Vfs}

theorem Begun.chunks {P : Permit} {f : FileId} {c₀ : Cfg} {oldReal : Nat} {i : Inode}
    (hb : Begun P f s c₀ oldReal) (hi : c₀.vfs.tree.inodes.get? f = some i) :
    ∃ j, s.tree.inodes.get? f = some j ∧ j.chunks = i.chunks := by
  obtain ⟨j, hj, hbare⟩ := (Path.frame hb.path).inode_back hi
  exact ⟨j, hj, (Inode.bare_chunks hbare).symm⟩

theorem granted_of_spares {op : Op} (h : op.Spares s) : op.Granted Plan.spare s := by
  cases op with
  | write f offset buf =>
      intro c₀ oldReal i count hb hempty hi hkind hne hsmall hcount hbudget
      obtain ⟨j, hj, hbare⟩ := (Path.frame hb.path).inode_back hi
      have hchunks := (Inode.bare_chunks hbare).symm
      have hspared := h j oldReal count hb.writable hj (Inode.bare_kind hbare ▸ hkind) hne hsmall
        hb.size hcount
      rw [hchunks] at hspared
      refine .of_chunks rfl (fun _ _ => trivial) (fun hgrown _ _ _ hcopies _ => ?_)
        extends_spare
      refine Spared.grants ((hspared fun hfew hlt => ?_).resolve_left
        fun hno => hno.not_grown hb hgrown) hb (fun hs => hs.begun hb hempty)
        fun x => hcopies x trivial trivial
      rcases hb.how with ⟨-, -, hsame⟩ | ⟨hmany, -⟩
      · rw [← hsame]
        exact hbudget hlt
      · exact absurd hmany (Nat.not_le.mpr hfew)
  | truncate f newSize =>
      intro c₀ oldReal i count hb hstart hi hkind hsmall hcount hbudget
      obtain ⟨j, hj, hbare⟩ := (Path.frame hb.path).inode_back hi
      have hchunks := (Inode.bare_chunks hbare).symm
      have hspared := h j oldReal count hb.writable hj (Inode.bare_kind hbare ▸ hkind) hsmall
        hb.size hcount
      rw [hchunks] at hspared
      have hsupply : ∀ {need : Nat}, s.Supplies need → c₀.vfs.Supplies need :=
        fun hs => hs.begun (Path.frame hb.path) hstart hb.flight
      obtain ⟨hcleared, hheader⟩ := hspared fun hlt => by
        rcases hb.how with ⟨-, -, hsame⟩ | ⟨hmany, -, hnone, -⟩
        · rw [← hsame]
          exact hbudget hlt
        · -- a `truncate` flushes nothing before it starts
          have hpend : c₀.vfs.pendingFree = s.pendingFree := hstart.pending
          rw [← hpend, hnone] at hmany
          exact absurd hmany (by decide)
      exact ⟨fun _ _ => trivial, hcleared.grants hb hsupply fun _ => ⟨trivial, trivial⟩, fun _ _ _ => extends_spare,
        fun hhide hgrown =>
        ((hheader hhide).resolve_left fun hno => hno.not_grown hb hgrown).grants hb hsupply fun _ => trivial⟩
  | _ => trivial

end Vfs

/-- Two bytes across the boundary of the chunks; the write of the second chunk
fails. -/
def tornWrite : Call :=
  ⟨.write 2 4095 [1, 2], { Env.quiet with io := [.ok, .ok, .ok, .before] }⟩

/-- Chunks that a flush has put below the floor are copied where there is no
limit. -/
theorem spares_of_flushed {s : Vfs} {f : FileId} {chunks : List ChunkRef} {offset : Nat}
    {buf : List UInt8} (hchunks : (s.tree.inodes.get? f).map Inode.chunks = some chunks)
    (hfree : s.maxVaultSize = 0) (hfew : s.pendingFree.length < pendingFreeFlushThreshold)
    (hold : ∀ r ∈ chunks, r.generation < s.cowFloorGen ∧ r.generation < s.tree.nextChunkGen) :
    (Op.write f offset buf).Spares s := by
  intro i oldReal count _ hi _ _ _ _ _ _
  rw [hi] at hchunks
  injection hchunks with hlist
  refine .inr fun idx r _ hr => ?_
  obtain ⟨hfloor, hnext⟩ := hold r (hlist ▸ List.mem_of_getElem? hr)
  exact ⟨hfloor, hnext, .inr ⟨fun hmany => Nat.not_le.mpr hfew hmany.1, .inl hfree⟩⟩

end Luksbox
