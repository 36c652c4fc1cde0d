import Luksbox.Proofs.Commits

/-!
# Commits over a run

Two things keep a call from committing while a chunk is broken. Either no flush
recycles after the first rewrite in place, or nothing is rewritten in its own
slot before one has, but perhaps for the size header, which comes last. Both are
plans (`Plan.ordered`), and `Op.Orderly` says of the state before a call that one
of the two holds: it counts the copies the call needs, the chunks it appends and
the slots that are free, waiting or still below the maximum size.

A run of calls that return keeps the slots in order as well: slots wait only in
a dirty tree, so a shrink releases all of them before it cuts the file.
-/

namespace Luksbox

open Lib Relation

/-! ## When a call may commit -/

/-- The plan of a call that commits nothing broken: before a flush it overwrites
chunks of its file only if `early` holds, and before the size header only if `sooner`
does too. -/
def Plan.ordered (early sooner : Prop) (copies covers : ChunkId → Prop) (grows : Nat → Prop) :
    Plan where
  permit := ⟨fun _ => True, False⟩
  flushes := True
  early := early
  sooner := sooner
  copies := copies
  covers := covers
  grows := grows

/-- A call that takes at least `sure` slots and up to `need` may find the vault full
and at least `least` slots waiting. -/
structure MayRecycle (s : Vfs) (least sure need : Nat) : Prop where
  limited : s.maxVaultSize ≠ 0
  commits : s.commits
  kept : sure ≤ s.room
  room : s.room < need
  waiting : max least 1 ≤ s.pendingFree.length

/-- The slots of the touched chunks that are copied, those below the floor. A younger
chunk takes no slot: it is rewritten in its own. -/
def copiesOf (s : Vfs) (base : List ChunkRef) (touched : Nat → Prop) [DecidablePred touched] :
    List ChunkId :=
  (base.zipIdx.filter fun p => decide (touched p.2 ∧ p.1.generation < s.cowFloorGen)).map
    fun p => p.1.id

/-- All touched chunks are below the floor. -/
def AllOld (s : Vfs) (base : List ChunkRef) (touched : Nat → Prop) : Prop :=
  ∀ idx r, touched idx → base[idx]? = some r → r.generation < s.cowFloorGen

instance {w : Vfs.WriteArgs} {last : Nat} : DecidablePred (Vfs.writeTouches w last) :=
  fun _ => inferInstanceAs (Decidable (_ ∧ _))

instance {oldReal newSize len : Nat} {hide : Bool} :
    DecidablePred (Vfs.truncateTouches oldReal newSize hide len) :=
  fun _ => inferInstanceAs (Decidable (_ ∧ _))

/-- The condition on a call: no flush can come after its first rewrite, or it copies
all it rewrites before the size header. A `write` extends the file before it rewrites
anything, and empties a long list of waiting slots before it starts; `truncate`
extends it after it has cleared the end, and there a single waiting slot is enough
to flush for. -/
def Op.Orderly (s : Vfs) : Op → Prop
  | .write f offset buf => ∀ i oldReal count, s.tree.inodes.get? f = some i →
      s.sizeOf f = some oldReal →
      paddedChunkCount (requiredChunks (max oldReal (offset + buf.length)) s.hideSize)
        s.paddingOn = .ok count →
      let w := Vfs.argsOf f offset buf oldReal i.chunks.length s.hideSize
      let last := Vfs.lastOf offset buf s.hideSize
      let new := count - i.chunks.length
      pendingFreeFlushThreshold ≤ s.pendingFree.length ∨
        ¬ MayRecycle s pendingFreeRecycleMin new
          (new + (copiesOf s i.chunks (Vfs.writeTouches w last)).length) ∨
        AllOld s i.chunks (Vfs.writeCovers w last)
  | .truncate f newSize => ∀ i oldReal count, s.tree.inodes.get? f = some i →
      s.sizeOf f = some oldReal →
      paddedChunkCount (requiredChunks newSize s.hideSize) s.paddingOn = .ok count →
      let base := i.chunks.take count
      let cleared := Vfs.clearedChunks oldReal newSize s.hideSize base.length
      let copies := (copiesOf s base (· ∈ cleared)).length
      let new := count - base.length
      (¬ MayRecycle s pendingFreeRecycleMin 0 copies ∧
          (base.length < count → ¬ MayRecycle s 1 0 (new + copies)) ∧
          (s.hideSize = true → ¬ MayRecycle s pendingFreeRecycleMin new (new + (copiesOf s base
            (Vfs.truncateTouches oldReal newSize s.hideSize base.length)).length))) ∨
        (AllOld s base (· ∈ cleared) ∧
          (copies ≤ s.room ∨ pendingFreeRecycleMin ≤ s.pendingFree.length))
  | _ => True

theorem mem_copiesOf {s : Vfs} {base : List ChunkRef} {touched : Nat → Prop}
    [DecidablePred touched] {idx : Nat} {r : ChunkRef} (ht : touched idx)
    (hr : base[idx]? = some r) (hold : r.generation < s.cowFloorGen) :
    r.id ∈ copiesOf s base touched := by
  refine List.mem_map.mpr ⟨(r, idx), List.mem_filter.mpr ⟨?_, ?_⟩, rfl⟩
  · exact List.mem_zipIdx_iff_getElem?.mpr hr
  · exact decide_eq_true ⟨ht, hold⟩

/-- The slots in flight are those of appended chunks and at most the ones listed. -/
theorem Plan.Spends.bounds {p : Plan} {c₀ : Cfg} {k : Nat} {l : List ChunkId}
    (h : p.Spends c₀ k) (hfloor : c₀.vfs.cowFloorGen ≤ c₀.vfs.tree.nextChunkGen)
    (hl : ∀ x, p.copies x → x ∈ l) : ∃ new, p.grows new ∧ new ≤ k ∧ k ≤ new + l.length := by
  obtain ⟨new, ids, rfl, hgrows, hids⟩ := h
  obtain ⟨hnodup, hcopies⟩ := hids hfloor
  have hlen := (hnodup.subperm fun x hx => hl x (hcopies x hx)).length_le
  exact ⟨new, hgrows, by omega, by omega⟩

theorem Plan.Copying.bounds {p : Plan} {c₀ : Cfg} {k : Nat} {l : List ChunkId}
    (h : p.Copying c₀ k) (hfloor : c₀.vfs.cowFloorGen ≤ c₀.vfs.tree.nextChunkGen)
    (hl : ∀ x, p.copies x → x ∈ l) : ∃ new, p.grows new ∧ new ≤ k ∧ k < new + l.length := by
  obtain ⟨new, id, ids, rfl, hgrows, hids⟩ := h
  obtain ⟨hnodup, hcopies⟩ := hids hfloor
  have hlen := (hnodup.subperm fun x hx => hl x (hcopies x hx)).length_le
  rw [List.length_cons] at hlen
  exact ⟨new, hgrows, by omega, by omega⟩

section Granted

variable {P : Permit} {f : FileId} {s : Vfs} {c₀ c : Cfg} {oldReal least sure need new : Nat}
  {base : List ChunkRef} {touched : Nat → Prop} {early sooner : Prop}
  {copies covers : ChunkId → Prop} {l : List ChunkId}

/-- A full vault has used up the room there was before the call. -/
theorem Full.room_le (h : Full c.vfs) (hb : Vfs.Begun P f s c₀ oldReal)
    (hstart : Calm ⟨[], [], s⟩ c₀) (hcalm : Calm c₀ c) : s.room ≤ c.flight.length := by
  have hfirst := hstart.room
  have hthen := hcalm.room
  have hnone := h.room
  rw [hb.flight] at hfirst hthen
  simp only [List.length_nil] at hfirst hthen
  omega

/-- A flush that recycles inside a call finds what the state before promised. -/
theorem Recycles.mayRecycle (h : Recycles least c.vfs) (hcom : c.vfs.commits)
    (hb : Vfs.Begun P f s c₀ oldReal) (hframe : Frame c₀.vfs c.vfs) (hcalm : Calm c₀ c)
    (hsure : sure ≤ c.flight.length) (hlen : c.flight.length < need) :
    Calm ⟨[], [], s⟩ c₀ ∧ MayRecycle s least sure need ∧ c₀.vfs.pendingFree ≠ [] := by
  have hwait := h.2
  rw [hcalm.pending] at hwait
  have hsome : c₀.vfs.pendingFree ≠ [] := by
    intro hnil
    rw [hnil, List.length_nil] at hwait
    omega
  rcases hb.how with ⟨hstart, -⟩ | ⟨-, -, hnone, -⟩
  · have hframe₀ := Path.frame hb.path
    have hpend : c₀.vfs.pendingFree = s.pendingFree := hstart.pending
    have hcom₀ : c₀.vfs.commits := (hcalm.commits hframe.tolerated).mp hcom
    have hlimit₀ : c₀.vfs.maxVaultSize ≠ 0 := fun hzero => h.1.1 (hframe.maxVaultSize.trans hzero)
    have hlimit : s.maxVaultSize ≠ 0 := fun hzero =>
      hlimit₀ (hframe₀.maxVaultSize.trans hzero)
    refine ⟨hstart, ⟨hlimit, (hstart.commits hframe₀.tolerated).mp hcom₀, ?_, ?_, ?_⟩, hsome⟩
    · have hfirst := hstart.paid hlimit
      have hthen := hcalm.paid hlimit₀
      rw [hb.flight] at hfirst hthen
      simp only [List.length_nil] at hfirst hthen
      omega
    · have hroom := h.1.room_le hb hstart hcalm
      omega
    · rw [← hpend]
      exact hwait
  · exact absurd hnone hsome

/-- What is granted to rewrites none of which flushes. -/
theorem settled_grants (hb : Vfs.Begun P f s c₀ oldReal)
    (hpaced : c₀.vfs.cowFloorGen ≤ c₀.vfs.tree.nextChunkGen) (he : early)
    (hcopy : ∀ idx r, touched idx → base[idx]? = some r →
      r.generation < c₀.vfs.cowFloorGen → copies r.id)
    (hl : ∀ x, copies x → x ∈ l)
    (h : MayRecycle s pendingFreeRecycleMin new (new + l.length) → c₀.vfs.pendingFree = []) :
    Grants (Plan.ordered early sooner copies covers (· = new)) c₀ base touched need where
  copy := hcopy
  fresh := fun _ _ _ _ _ _ _ _ _ => ⟨trivial, he⟩
  full := fun _ _ _ _ _ _ _ _ _ _ _ => ⟨trivial, he⟩
  recycle := by
    intro _ c hframe hcalm _ hcopying hrec hcom
    obtain ⟨_, rfl, hle, hlt⟩ := hcopying.bounds hpaced hl
    obtain ⟨-, hmay, hsome⟩ := hrec.mayRecycle hcom hb hframe hcalm hle hlt
    exact absurd (h hmay) hsome
  after := fun _ _ _ _ _ _ _ _ _ _ => trivial

/-- What is granted to rewrites that copy. -/
theorem copying_grants {grows : Nat → Prop} (he : ¬ early)
    (hcopy : ∀ idx r, touched idx → base[idx]? = some r →
      r.generation < c₀.vfs.cowFloorGen → copies r.id)
    (hold : ∀ idx r, touched idx → base[idx]? = some r → r.generation < c₀.vfs.cowFloorGen)
    (hroom : ∀ c, Frame c₀.vfs c.vfs → Calm c₀ c →
      (Plan.ordered early sooner copies covers grows).Copying c₀ c.flight.length →
      Full c.vfs → Recycles pendingFreeRecycleMin c.vfs ∧ c.vfs.commits) :
    Grants (Plan.ordered early sooner copies covers grows) c₀ base touched need where
  copy := hcopy
  fresh := fun _ _ _ _ idx r ht hr hfloor => absurd (hold idx r ht hr) (Nat.not_lt.mpr hfloor)
  full := fun c hframe hcalm _ hcopying hfull hno _ _ _ _ =>
    absurd (hroom c hframe hcalm hcopying hfull) hno
  recycle := fun _ _ _ _ _ _ _ _ => ⟨trivial, he⟩
  after := fun _ _ _ _ _ _ _ _ _ _ => trivial

/-- Enough slots are waiting for a full vault to recycle. -/
theorem recycles_of_waiting (hb : Vfs.Begun P f s c₀ oldReal) (hstart : Calm ⟨[], [], s⟩ c₀)
    (hcom : s.commits) (hmany : pendingFreeRecycleMin ≤ s.pendingFree.length)
    (hframe : Frame c₀.vfs c.vfs) (hcalm : Calm c₀ c) (hfull : Full c.vfs) :
    Recycles pendingFreeRecycleMin c.vfs ∧ c.vfs.commits := by
  refine ⟨⟨hfull, ?_⟩, ?_⟩
  · have hpend : c₀.vfs.pendingFree = s.pendingFree := hstart.pending
    have hmin : max pendingFreeRecycleMin 1 = pendingFreeRecycleMin := rfl
    rw [hcalm.pending, hpend, hmin]
    exact hmany
  · have hframe₀ := Path.frame hb.path
    exact (hcalm.commits hframe.tolerated).mpr ((hstart.commits hframe₀.tolerated).mpr hcom)

/-- The size header comes last, so its chunk may be rewritten in its own slot if it is
young, or if too few slots are waiting. -/
def HeaderLast (s : Vfs) (base : List ChunkRef) : Prop :=
  (∀ r, base[0]? = some r → s.cowFloorGen ≤ r.generation) ∨
    s.pendingFree.length < pendingFreeRecycleMin

theorem header_grants {grows : Nat → Prop} (hb : Vfs.Begun P f s c₀ oldReal)
    (hstart : Calm ⟨[], [], s⟩ c₀) (hpaced : c₀.vfs.cowFloorGen ≤ c₀.vfs.tree.nextChunkGen)
    (hcom : s.commits)
    (hcopy : ∀ idx r, idx = 0 → base[idx]? = some r →
      r.generation < c₀.vfs.cowFloorGen → copies r.id) :
    Grants (Plan.ordered (HeaderLast s base) sooner copies covers grows) c₀ base (· = 0)
      need where
  copy := hcopy
  fresh := by
    rintro _ _ _ _ _ r rfl hr hfloor
    refine ⟨trivial, .inl fun r' hr' => ?_⟩
    have heq : r' = r := Option.some.inj (hr'.symm.trans hr)
    have hsame : c₀.vfs.cowFloorGen = s.cowFloorGen := hstart.floor
    rw [heq, ← hsame]
    exact hfloor
  full := by
    intro c hframe hcalm _ _ hfull hno _ _ _ _
    refine ⟨trivial, .inr (Nat.not_le.mp fun hmany => hno ?_)⟩
    exact recycles_of_waiting hb hstart hcom hmany hframe hcalm hfull
  recycle := by
    intro hbelow c hframe hcalm _ _ hrec _
    refine ⟨trivial, ?_⟩
    rintro (hyoung | hfew)
    · obtain ⟨_, r, rfl, hr, hold⟩ := hbelow hpaced
      have hle := hyoung r hr
      have hsame : c₀.vfs.cowFloorGen = s.cowFloorGen := hstart.floor
      omega
    · have hwait := hrec.2
      have hpend : c₀.vfs.pendingFree = s.pendingFree := hstart.pending
      have hmin : max pendingFreeRecycleMin 1 = pendingFreeRecycleMin := rfl
      rw [hcalm.pending, hpend, hmin] at hwait
      omega
  after := fun _ _ _ _ _ _ _ _ _ _ => trivial

theorem extends_clean {p : Plan} (hf : p.flushes) : Extends p c₀ [] need :=
  fun _ _ _ _ _ _ _ _ _ => ⟨hf, .inl rfl⟩

end Granted

section Plans

variable {f : FileId} {s : Vfs}

/-- A call that meets the condition has a plan in which no flush commits while
a chunk is broken. -/
theorem Op.Orderly.write_plan {offset : Nat} {buf : List UInt8}
    (hpaced : s.cowFloorGen ≤ s.tree.nextChunkGen) (h : (Op.write f offset buf).Orderly s) :
    ∃ p : Plan, ¬ p.permit.midFlush ∧ Vfs.MayWrite p f s offset buf := by
  by_cases hknown : ∃ i oldReal count, s.tree.inodes.get? f = some i ∧ s.sizeOf f = some oldReal ∧
      paddedChunkCount (requiredChunks (max oldReal (offset + buf.length)) s.hideSize)
        s.paddingOn = .ok count
  · obtain ⟨i, oldReal, count, hi, hsize, hcount⟩ := hknown
    have hcond := h i oldReal count hi hsize hcount
    simp only at hcond
    generalize hw : Vfs.argsOf f offset buf oldReal i.chunks.length s.hideSize = w at hcond
    generalize hlast : Vfs.lastOf offset buf s.hideSize = last at hcond
    have hlen : w.curLen = i.chunks.length := by
      rw [← hw]
      rfl
    -- what the call finds once it has begun is what the condition speaks of
    have hplan : ∀ {p : Plan}, (∀ c₀, Vfs.Begun p.permit f s c₀ oldReal → Vfs.Emptied s c₀ →
        c₀.vfs.cowFloorGen ≤ c₀.vfs.tree.nextChunkGen →
        Vfs.WriteGrants p c₀ i.chunks w count last) → Vfs.MayWrite p f s offset buf := by
      intro p hp c₀ oldReal' i' count' hb hempty hi' _ _ _ hcount' _
      obtain ⟨j, hj, hchunks⟩ := hb.chunks hi'
      have hji : j = i := Option.some.inj (hj.symm.trans hi)
      have hsizes : oldReal' = oldReal := Option.some.inj (hb.size.symm.trans hsize)
      subst hsizes
      have hcounts : count' = count := Except.ok.inj (hcount'.symm.trans hcount)
      subst hcounts
      rw [← hchunks, hji, hw, hlast]
      exact hp c₀ hb hempty ((Path.frame hb.path).paced hpaced)
    by_cases hmany : pendingFreeFlushThreshold ≤ s.pendingFree.length
    · -- nothing is waiting when the call starts
      refine ⟨Plan.ordered True True (· ∈ i.chunks.map ChunkRef.id) (fun _ => True)
        (· ≤ count - i.chunks.length), not_false, hplan fun c₀ hb hempty hpaced₀ => ?_⟩
      have hgrants : ∀ {touched : Nat → Prop} {need : Nat} {early : Prop}
          {copies : ChunkId → Prop}, early → (∀ x, x ∈ i.chunks.map ChunkRef.id → copies x) →
          (∀ x, copies x → x ∈ i.chunks.map ChunkRef.id) →
          Grants (Plan.ordered early True copies (fun _ => True)
            (· = count - w.curLen)) c₀ i.chunks touched need := by
        intro touched need early copies he hcopies hl
        exact settled_grants hb hpaced₀ he
          (fun idx r _ hr _ => hcopies _ (List.mem_map_of_mem (List.mem_of_getElem? hr))) hl
          fun hmay => hempty hmany hmay.commits
      exact ⟨fun n hn => hlen ▸ hn,
        fun _ => hgrants ⟨trivial, trivial⟩ (fun _ hx => ⟨hx, trivial⟩) fun _ hx => hx.1,
        fun _ _ _ => hgrants trivial (fun _ hx => hx) fun _ hx => hx, extends_clean trivial⟩
    · have hstart : ∀ {P : Permit} {c₀ : Cfg}, Vfs.Begun P f s c₀ oldReal →
          Calm ⟨[], [], s⟩ c₀ := by
        intro P c₀ hb
        rcases hb.how with ⟨hcalm, -⟩ | ⟨hlong, -⟩
        · exact hcalm
        · exact absurd hlong hmany
      have hcopies : ∀ {P : Permit} {c₀ : Cfg}, Vfs.Begun P f s c₀ oldReal →
          ∀ idx r, Vfs.writeTouches w last idx → i.chunks[idx]? = some r →
          r.generation < c₀.vfs.cowFloorGen →
          r.id ∈ copiesOf s i.chunks (Vfs.writeTouches w last) := by
        intro P c₀ hb idx r ht hr hold
        have hsame : c₀.vfs.cowFloorGen = s.cowFloorGen := (hstart hb).floor
        exact mem_copiesOf ht hr (hsame ▸ hold)
      have hcovers : ∀ idx, Vfs.writeCovers w last idx → Vfs.writeTouches w last idx :=
        fun idx hc => ⟨hc.1, .inl hc.2⟩
      have hheader : w.hideSize = true → w.newReal ≠ w.oldReal → ∀ r : ChunkRef, i.chunks[0]? = some r →
          Vfs.writeTouches w last 0 := fun hhide hne r hr =>
        ⟨hlen ▸ (List.getElem?_eq_some_iff.mp hr).1, .inr ⟨rfl, hhide, hne⟩⟩
      by_cases hmay : MayRecycle s pendingFreeRecycleMin (count - i.chunks.length)
          (count - i.chunks.length + (copiesOf s i.chunks (Vfs.writeTouches w last)).length)
      · -- what is copied is copied before the size header is written
        have hold := (hcond.resolve_left hmany).resolve_left (not_not.mpr hmay)
        have hwait : pendingFreeRecycleMin ≤ s.pendingFree.length :=
          (le_max_left _ _).trans hmay.waiting
        refine ⟨Plan.ordered (HeaderLast s i.chunks) False
          (· ∈ copiesOf s i.chunks (Vfs.writeTouches w last)) (fun _ => True)
          (· ≤ count - i.chunks.length), not_false, hplan fun c₀ hb _ hpaced₀ => ?_⟩
        have hsame : c₀.vfs.cowFloorGen = s.cowFloorGen := (hstart hb).floor
        refine ⟨fun n hn => hlen ▸ hn, fun _ => ?_, fun hhide hne _ => ?_, extends_clean trivial⟩
        · refine copying_grants And.right
            (fun idx r ht hr hlow => ⟨hcopies hb idx r (hcovers idx ht) hr hlow, trivial⟩)
            (fun idx r ht hr => by rw [hsame]; exact hold idx r ht hr)
            fun c hframe hcalm _ hfull =>
              recycles_of_waiting hb (hstart hb) hmay.commits hwait hframe hcalm hfull
        · refine header_grants hb (hstart hb) hpaced₀ hmay.commits ?_
          rintro idx r rfl hr hlow
          exact hcopies hb 0 r (hheader hhide hne r hr) hr hlow
      · -- no flush comes after the file has been extended
        refine ⟨Plan.ordered True True (· ∈ copiesOf s i.chunks (Vfs.writeTouches w last))
          (fun _ => True) (· ≤ count - i.chunks.length), not_false,
          hplan fun c₀ hb _ hpaced₀ => ?_⟩
        refine ⟨fun n hn => hlen ▸ hn, fun _ => ?_, fun hhide hne _ => ?_, extends_clean trivial⟩
        · refine settled_grants hb hpaced₀ ⟨trivial, trivial⟩
            (fun idx r ht hr hlow => ⟨hcopies hb idx r (hcovers idx ht) hr hlow, trivial⟩)
            (fun _ hx => hx.1) fun h => absurd (hlen ▸ h) hmay
        · refine settled_grants hb hpaced₀ trivial ?_ (fun _ hx => hx)
            fun h => absurd (hlen ▸ h) hmay
          rintro idx r rfl hr hlow
          exact hcopies hb 0 r (hheader hhide hne r hr) hr hlow
  · refine ⟨Plan.ordered True True (fun _ => True) (fun _ => True) fun _ => True, not_false, ?_⟩
    intro c₀ oldReal i count hb _ hi _ _ _ hcount _
    obtain ⟨j, hj, -⟩ := hb.chunks hi
    exact absurd ⟨j, oldReal, count, hj, hb.size, hcount⟩ hknown

theorem Op.Orderly.truncate_plan {newSize : Nat}
    (hpaced : s.cowFloorGen ≤ s.tree.nextChunkGen) (h : (Op.truncate f newSize).Orderly s) :
    ∃ p : Plan, ¬ p.permit.midFlush ∧ Vfs.MayTruncate p f s newSize := by
  by_cases hknown : ∃ i oldReal count, s.tree.inodes.get? f = some i ∧ s.sizeOf f = some oldReal ∧
      paddedChunkCount (requiredChunks newSize s.hideSize) s.paddingOn = .ok count
  · obtain ⟨i, oldReal, count, hi, hsize, hcount⟩ := hknown
    have hcond := h i oldReal count hi hsize hcount
    simp only at hcond
    generalize hbase : i.chunks.take count = base at hcond
    have hplan : ∀ {p : Plan}, (∀ c₀, Vfs.Begun p.permit f s c₀ oldReal → Calm ⟨[], [], s⟩ c₀ →
        c₀.vfs.cowFloorGen ≤ c₀.vfs.tree.nextChunkGen →
        Vfs.TruncateGrants p c₀ base oldReal newSize count s.hideSize) →
        Vfs.MayTruncate p f s newSize := by
      intro p hp c₀ oldReal' i' count' hb hstart hi' _ _ hcount' _
      obtain ⟨j, hj, hchunks⟩ := hb.chunks hi'
      have hji : j = i := Option.some.inj (hj.symm.trans hi)
      have hsizes : oldReal' = oldReal := Option.some.inj (hb.size.symm.trans hsize)
      have hcounts : count' = count := Except.ok.inj (hcount'.symm.trans hcount)
      subst hsizes hcounts
      rw [← hchunks, hji, hbase]
      exact hp c₀ hb hstart ((Path.frame hb.path).paced hpaced)
    have hclears : ∀ {c₀ : Cfg}, Calm ⟨[], [], s⟩ c₀ → ∀ idx r,
        idx ∈ Vfs.clearedChunks oldReal newSize s.hideSize base.length → base[idx]? = some r →
        r.generation < c₀.vfs.cowFloorGen → r.id ∈ copiesOf s base
          (· ∈ Vfs.clearedChunks oldReal newSize s.hideSize base.length) := by
      intro c₀ hstart idx r ht hr hold
      have hsame : c₀.vfs.cowFloorGen = s.cowFloorGen := hstart.floor
      exact @mem_copiesOf s base (· ∈ _) _ idx r ht hr (hsame ▸ hold)
    have hcopies : ∀ {c₀ : Cfg}, Calm ⟨[], [], s⟩ c₀ → ∀ idx r,
        Vfs.truncateTouches oldReal newSize s.hideSize base.length idx → base[idx]? = some r →
        r.generation < c₀.vfs.cowFloorGen → r.id ∈ copiesOf s base
          (Vfs.truncateTouches oldReal newSize s.hideSize base.length) := by
      intro c₀ hstart idx r ht hr hold
      have hsame : c₀.vfs.cowFloorGen = s.cowFloorGen := hstart.floor
      exact mem_copiesOf ht hr (hsame ▸ hold)
    have hcleared : ∀ {idx : Nat} {r : ChunkRef},
        idx ∈ Vfs.clearedChunks oldReal newSize s.hideSize base.length → base[idx]? = some r →
        Vfs.truncateTouches oldReal newSize s.hideSize base.length idx := fun ht hr =>
      ⟨(List.getElem?_eq_some_iff.mp hr).1, .inl ht⟩
    have hheader : s.hideSize = true → ∀ r, base[0]? = some r →
        Vfs.truncateTouches oldReal newSize s.hideSize base.length 0 := fun hhide r hr =>
      ⟨(List.getElem?_eq_some_iff.mp hr).1, .inr ⟨hhide, rfl⟩⟩
    by_cases hsettled : ¬ MayRecycle s pendingFreeRecycleMin 0 (copiesOf s base
          (· ∈ Vfs.clearedChunks oldReal newSize s.hideSize base.length)).length ∧
        (base.length < count → ¬ MayRecycle s 1 0 (count - base.length + (copiesOf s base
          (· ∈ Vfs.clearedChunks oldReal newSize s.hideSize base.length)).length)) ∧
        (s.hideSize = true → ¬ MayRecycle s pendingFreeRecycleMin (count - base.length)
          (count - base.length + (copiesOf s base
            (Vfs.truncateTouches oldReal newSize s.hideSize base.length)).length))
    · -- no flush that recycles comes at all
      obtain ⟨hclear, hextend, hlast⟩ := hsettled
      refine ⟨Plan.ordered True True
        (· ∈ copiesOf s base (Vfs.truncateTouches oldReal newSize s.hideSize base.length))
        (· ∈ copiesOf s base (· ∈ Vfs.clearedChunks oldReal newSize s.hideSize base.length))
        (· ≤ count - base.length), not_false, hplan fun c₀ hb hstart hpaced₀ => ?_⟩
      refine ⟨fun n hn => hn, ?_, fun hnew broken _ => ?_, fun hhide _ => ?_⟩
      · refine settled_grants hb hpaced₀ ⟨trivial, trivial⟩ (fun idx r ht hr hlow => ⟨hcopies
          hstart idx r (hcleared ht hr) hr hlow, hclears hstart idx r ht hr hlow⟩)
          (fun _ hx => hx.2) fun h => absurd (by rw [Nat.zero_add] at h; exact h) hclear
      · intro c hframe hcalm _ _ _ hspends hrec hcom
        obtain ⟨new, hnew', -, hle⟩ := hspends.bounds hpaced₀ fun _ hx => hx.2
        have hnew' : new ≤ count - base.length := hnew'
        have hlt : c.flight.length < count - base.length + (copiesOf s base
            (· ∈ Vfs.clearedChunks oldReal newSize s.hideSize base.length)).length := by omega
        obtain ⟨-, hmay, -⟩ := hrec.mayRecycle hcom hb hframe hcalm (Nat.zero_le _) hlt
        exact absurd hmay (hextend hnew)
      · refine settled_grants hb hpaced₀ trivial ?_ (fun _ hx => hx)
          fun h => absurd h (hlast hhide)
        rintro idx r rfl hr hlow
        exact hcopies hstart 0 r (hheader hhide r hr) hr hlow
    · -- what is cleared is copied before the file is extended
      obtain ⟨hold, hroom⟩ := hcond.resolve_left hsettled
      have hlimits : s.maxVaultSize ≠ 0 ∧ s.commits := by
        by_contra hno
        have hnever : ∀ {least sure need : Nat}, ¬ MayRecycle s least sure need :=
          fun hmay => hno ⟨hmay.limited, hmay.commits⟩
        exact hsettled ⟨hnever, fun _ => hnever, fun _ => hnever⟩
      refine ⟨Plan.ordered (HeaderLast s base) False
        (· ∈ copiesOf s base (Vfs.truncateTouches oldReal newSize s.hideSize base.length))
        (· ∈ copiesOf s base (· ∈ Vfs.clearedChunks oldReal newSize s.hideSize base.length))
        (· ≤ count - base.length), not_false, hplan fun c₀ hb hstart hpaced₀ => ?_⟩
      have hsame : c₀.vfs.cowFloorGen = s.cowFloorGen := hstart.floor
      refine ⟨fun n hn => hn, ?_, fun _ broken _ => ?_, fun hhide _ => ?_⟩
      · refine copying_grants And.right (fun idx r ht hr hlow => ⟨hcopies hstart idx r
          (hcleared ht hr) hr hlow, hclears hstart idx r ht hr hlow⟩)
          (fun idx r ht hr => by rw [hsame]; exact hold idx r ht hr) ?_
        intro c hframe hcalm hcopying hfull
        rcases hroom with hroom | hmany
        · -- there was room for what is copied
          obtain ⟨_, rfl, -, hlt⟩ := hcopying.bounds hpaced₀ fun _ hx => hx.2
          have hle := hfull.room_le hb hstart hcalm
          omega
        · exact recycles_of_waiting hb hstart hlimits.2 hmany hframe hcalm hfull
      · intro c _ _ _ hor _ _ _ _
        exact ⟨trivial, .inl (hor.resolve_right And.right)⟩
      · refine header_grants hb hstart hpaced₀ hlimits.2 ?_
        rintro idx r rfl hr hlow
        exact hcopies hstart 0 r (hheader hhide r hr) hr hlow
  · refine ⟨Plan.ordered True True (fun _ => True) (fun _ => True) fun _ => True, not_false, ?_⟩
    intro c₀ oldReal i count hb _ hi _ _ hcount _
    obtain ⟨j, hj, -⟩ := hb.chunks hi
    exact absurd ⟨j, oldReal, count, hj, hb.size, hcount⟩ hknown

end Plans

/-! ## Calls that return -/

/-- The state between calls that returned. Slots are waiting only where something is
left to flush, and the floor is not above the generations handed out. -/
structure Consistent (s : Vfs) : Prop where
  owned : Owned s
  whole : s.Whole
  tidy : s.dirty = true ∨ s.pendingFree = []
  paced : s.cowFloorGen ≤ s.tree.nextChunkGen

/-- The floor stays at or below the generations handed out. -/
theorem Moves.paced {p : Plan} {s s' : Vfs} (hm : Moves p s s')
    (h : s.cowFloorGen ≤ s.tree.nextChunkGen) : s'.cowFloorGen ≤ s'.tree.nextChunkGen := by
  cases hm with
  | edit hd ht =>
      rw [hd.rest]
      exact h
  | along ha =>
      obtain ⟨f, c, hp, rfl⟩ := ha
      exact (Path.frame hp).paced h
  | write hw =>
      obtain ⟨pts, hview, -⟩ := hw.sees
      rw [hw.final]
      exact (Path.frame (hw.begun.path.trans hview.path)).paced h
  | truncate hw =>
      obtain ⟨pts, hview, -⟩ := hw.sees
      rw [hw.final]
      exact (Path.frame (hw.begun.path.trans hview.path)).paced h
  | settings m d k heq hd =>
      rw [heq]
      exact h

namespace Consistent

variable {s s' : Vfs}

theorem withEnv (h : Consistent s) {env : Env} : Consistent (s.withEnv env) :=
  ⟨h.owned.withEnv, ⟨h.whole.intact, h.whole.listed.chains, h.whole.listed.inline⟩, h.tidy, h.paced⟩

/-- Nothing waits in a clean tree. -/
theorem no_pending (h : Consistent s) (hc : ¬ s.commits) (htol : s.toleratedInodes = []) :
    s.pendingFree = [] := by
  refine h.tidy.resolve_left fun hdirty => hc ⟨htol, .inl hdirty⟩

end Consistent

namespace Vfs

variable {s s' : Vfs}

theorem size_tidy {c : Cfg} (h : s.dirty = true ∨ s.pendingFree = [])
    (hk : SizeKept ⟨[], [], s⟩ c) : c.vfs.dirty = true ∨ c.vfs.pendingFree = [] := by
  rw [hk.calm.dirty, hk.calm.pending]
  exact h

theorem edit_tidy (h : s.dirty = true ∨ s.pendingFree = []) (hd : DataEdit s s') :
    s'.dirty = true ∨ s'.pendingFree = [] := by
  rcases hd.dirty with heq | hdirty
  · rw [heq]
    exact h
  · exact .inl hdirty

theorem Done.tidy {p : Plan} (ht : TreeInv s.tree) (h : s.dirty = true ∨ s.pendingFree = [])
    {op : Op} {r : Reply} (hop : op.isLocal = true) (hd : Done p s op r s') :
    s'.dirty = true ∨ s'.pendingFree = [] := by
  have hedit : Edited s op s' → s'.dirty = true ∨ s'.pendingFree = [] :=
    fun he => edit_tidy h (Edited.dataEdit ht he)
  have hsame : s' = s → s'.dirty = true ∨ s'.pendingFree = [] := fun he => he ▸ h
  cases op with
  | lookup parent name => exact hsame hd
  | readdir id => exact hsame hd
  | parentOf id => exact hsame hd
  | readlink id => exact hsame hd
  | stat f =>
      obtain ⟨c, st, -, rfl, -, -, hkept⟩ := hd
      exact size_tidy h hkept
  | read f offset bufLen =>
      obtain ⟨c, d, -, rfl, -, -, hkept⟩ := hd
      exact size_tidy h hkept
  | write f offset buf =>
      rcases hd with ⟨-, he⟩ | ⟨c₀, oldReal, i, count, c, refs, retired, hw⟩
      · exact hsame he
      · rw [hw.final]
        exact .inl rfl
  | truncate f newSize =>
      obtain ⟨c₀, oldReal, i, count, c, refs, retired, hw⟩ := hd
      rw [hw.final]
      exact .inl rfl
  | flush =>
      obtain ⟨c, -, rfl, -, -, hmode⟩ := hd
      rcases hmode with ⟨-, he⟩ | ⟨-, hpend⟩
      · rw [he]
        exact h
      · exact .inr hpend
  | setMaxVaultSize bytes =>
      rcases hd with he | ⟨-, he⟩
      · exact hsame he
      · rw [he]
        exact .inl rfl
  | setShrinkMode mode =>
      have hd : s' = { s with shrinkMode := mode } := hd
      rw [hd]
      exact h
  | spaceReport =>
      obtain ⟨env, rfl⟩ := hd
      exact h
  | mkdir parent name => exact hedit hd
  | create parent name mode => exact hedit hd
  | symlink parent name target => exact hedit hd
  | link targetId newParent newName => exact hedit hd
  | unlink parent name => exact hedit hd
  | rmdir parent name => exact hedit hd
  | rename oldParent oldName newParent newName => exact hedit hd
  | chmod id mode => exact hedit hd
  | setMtime id mtimeNs => exact hedit hd
  | shrink => cases hop
  | shrinkAllowDeniable => cases hop
  | finish => cases hop
  | reopen => cases hop

/-- A call done to a plan leaves a consistent state if it left an intact one. -/
theorem Done.consistent {p : Plan} (h : Consistent s) {op : Op} {r : Reply}
    (hop : op.isLocal = true) (hd : Done p s op r s') (hw : s'.Whole) : Consistent s' :=
  ⟨h.owned.moves (hd.moves h.owned.tree hop), hw, hd.tidy h.owned.tree h.tidy hop,
    (hd.moves h.owned.tree hop).paced h.paced⟩

/-- What a call that returned leaves, and what it committed. -/
def Committed (s s' : Vfs) : Prop := Consistent s' ∧ Commits s s'

theorem exec_committed (h : Consistent s) {op : Op} (hop : op.isLocal = true)
    (hord : op.Orderly s) : wp (exec op) (fun _ s' => Committed s s') (fun _ _ => True) s := by
  have hspec : ∀ {p : Plan}, op.Granted p s →
      (∀ r s', Done p s op r s' → s'.Whole ∧ Commits s s') →
      wp (exec op) (fun _ s' => Committed s s') (fun _ _ => True) s := by
    intro p hg hkeep
    refine wp_mono (exec_spec h.owned.tree h.owned.ledger hop hg) (fun r s' hd => ?_)
      fun _ _ _ => trivial
    obtain ⟨hi, hc⟩ := hkeep r s' hd
    exact ⟨hd.consistent h hop hi, hc⟩
  cases op with
  | write f offset buf =>
      obtain ⟨p, hmid, hg⟩ := hord.write_plan h.paced
      refine hspec (p := p) hg fun r s' hd => ?_
      rcases hd with ⟨-, rfl⟩ | ⟨c₀, oldReal, i, count, c, refs, retired, hw⟩
      · exact ⟨h.whole, .refl⟩
      · exact written_intact hmid h.owned.ledger h.whole hw
  | truncate f newSize =>
      obtain ⟨p, hmid, hg⟩ := hord.truncate_plan h.paced
      refine hspec (p := p) hg fun r s' hd => ?_
      obtain ⟨c₀, oldReal, i, count, c, refs, retired, hw⟩ := hd
      exact truncated_intact hmid h.owned.ledger h.whole hw
  | _ =>
      exact hspec (p := Plan.whole) trivial fun r s' hd =>
        moves_intact h.owned h.whole (hd.moves h.owned.tree hop)

/-! ## Shrinking -/

theorem Committed.trans {s'' : Vfs} (h : Commits s s') (h' : Committed s' s'') : Committed s s'' :=
  ⟨h'.1, h.trans h'.2⟩

theorem flush_committed (h : Consistent s) :
    wp flush (fun _ s' => Committed s s' ∧ (s.toleratedInodes = [] → s'.pendingFree = []))
      (fun _ _ => True) s := by
  have hruns := @flush_runs Plan.whole.permit 0 ⟨[], [], s⟩ fun _ => Or.inl rfl
  refine wp_of_runs hruns (fun _ c' hp hf => ?_) fun _ _ _ _ => trivial
  have halong : Along Plan.whole.permit s c'.vfs := ⟨0, c', hp, rfl⟩
  obtain ⟨hi, hc⟩ := along_intact h.owned.ledger h.whole halong
  rcases hf.2.2 with ⟨hno, he⟩ | ⟨-, hpend⟩
  · have he : c'.vfs = s := he
    rw [he]
    exact ⟨⟨h, .refl⟩, h.no_pending hno⟩
  · exact ⟨⟨⟨h.owned.along halong, hi, .inr hpend, (Path.frame hp).paced h.paced⟩, hc⟩,
      fun _ => hpend⟩

theorem lowered_consistent (h : Consistent s) (hp : s.pendingFree = []) {keep : ChunkId}
    (hkeep : firstUnusedTailSlot s.tree = .ok keep) : Consistent (lowerNextChunkId keep s) := by
  refine ⟨lowered_owned h.owned (firstUnusedTailSlot_above hkeep) ?_, ⟨h.whole.intact,
    h.whole.listed.same rfl (Finset.Subset.refl _) rfl (fun _ _ _ _ _ => rfl) id⟩, .inl rfl, h.paced⟩
  intro x hx
  rw [hp] at hx
  cases hx

/-- The cut leaves every slot that is referred to. -/
theorem cut_consistent (h : Consistent s) {io : List Fault} {c : Container}
    (hcut : Cut (s.dataOffset + s.tree.nextChunkId * chunkSlotSize) (s.container.withIo io) c) :
    Committed s { s with container := c } := by
  have hkept : ∀ x, x < s.tree.nextChunkId → c.slots x = s.container.slots x := fun x hlt =>
    hcut.slots x (Nat.add_le_add_left (Nat.mul_le_mul_right _ hlt) _)
  refine ⟨⟨container_owned h.owned, ⟨?_, ?_⟩, h.tidy, h.paced⟩, .of_none hcut.key hcut.history⟩
  · intro g i idx r hi hr
    have hmem : r.id ∈ i.dataIds := List.mem_map_of_mem (List.mem_of_getElem? hr)
    show c.slots r.id (c.fileKey g) _ ≠ none
    rw [hcut.key, hkept r.id (h.owned.ledger.not_flight hi hmem).1.bound]
    exact h.whole.intact g i idx r hi hr
  · refine h.whole.listed.same rfl (Finset.Subset.refl _) hcut.key (fun g i hi x hx => ?_) id
    refine hkept x (h.owned.ledger.bound x ?_)
    have hpos := List.count_pos_iff.mpr hx
    have htally := OrdMap.tally_of_get? (g := Inode.listIds) (x := x) hi
    unfold Cfg.held
    rw [refIds_tally]
    simp only
    omega

theorem shrinkTail_committed (h : Consistent s) (htol : s.toleratedInodes = []) :
    wp shrinkTail (fun _ s' => Committed s s') (fun _ _ => True) s := by
  refine shrinkTail_rule (I := fun s₁ => Committed s s₁ ∧ s₁.pendingFree = [])
    (J := Committed s) ?_ (fun _ _ _ => trivial) ?_ (fun _ h₁ => h₁.1) ?_
  · refine wp_mono (flush_committed h) (fun _ s₁ h₁ => ?_) fun _ _ h' => h'
    exact ⟨h₁.1, h₁.2 htol⟩
  · intro keep s₁ h₁ hkeep
    have hlow := lowered_consistent h₁.1.1 h₁.2 hkeep
    have hlower : Commits s₁ (lowerNextChunkId keep s₁) := .of_none rfl rfl
    refine wp_mono (flush_committed hlow) (fun _ s₂ h₂ => ?_) fun _ _ h' => h'
    exact h₂.1.trans (h₁.1.2.trans hlower)
  · intro s₂ h₂
    refine cutTail_rule (fun _ _ => trivial) (fun io => ?_) fun n io c hcut => ?_
    · exact ⟨⟨container_owned h₂.1.owned, ⟨h₂.1.whole.intact, h₂.1.whole.listed.chains,
        h₂.1.whole.listed.inline⟩, h₂.1.tidy, h₂.1.paced⟩,
        h₂.2.trans (.of_none rfl rfl)⟩
    · exact (cut_consistent h₂.1 hcut).trans h₂.2

theorem shrink_committed (h : Consistent s) :
    wp shrink (fun _ s' => Committed s s') (fun _ _ => True) s := by
  unfold shrink
  rw [wp_bind, wp_ensureWritable]
  refine ⟨fun _ => trivial, fun htol => ?_⟩
  rw [wp_bind, wp_get]
  split
  · exact trivial
  · exact shrinkTail_committed h htol

theorem finish_committed (h : Consistent s) :
    wp finish (fun _ s' => Committed s s') (fun _ _ => True) s := by
  have hsame : ∀ env s₁, Committed s s₁ → Commits s (s₁.withEnv env) :=
    fun _ _ h₁ => h₁.2.trans (.of_none rfl rfl)
  refine finish_rule (I := Committed s) ?_ (fun env s₁ h₁ => ?_) (fun _ _ _ _ => trivial)
    fun env s₁ h₁ => ?_
  · exact wp_mono (flush_committed h) (fun _ _ h₁ => h₁.1) fun _ _ h' => h'
  · exact ⟨h₁.1.withEnv, hsame env s₁ h₁⟩
  · refine wp_mono (shrink_committed (@Consistent.withEnv s₁ h₁.1 env)) (fun _ s₂ h₂ => ?_)
      fun _ _ h' => h'
    exact h₂.trans (hsame env s₁ h₁)

theorem exec_cut_committed (h : Consistent s) {op : Op} (hop : op.shrinks = true) :
    wp (exec op) (fun _ s' => Committed s s') (fun _ _ => True) s := by
  cases op with
  | shrink =>
      unfold exec
      rw [wp_map]
      exact shrink_committed h
  | shrinkAllowDeniable =>
      unfold exec shrinkAllowDeniable
      rw [wp_map, wp_bind, wp_ensureWritable]
      exact ⟨fun _ => trivial, fun htol => shrinkTail_committed h htol⟩
  | finish =>
      unfold exec
      rw [wp_map]
      exact finish_committed h
  | _ => cases hop

/-! ## Runs -/

/-- Every call of the run meets the condition in the state it starts from. -/
def RunsOrderly (s : Vfs) : List Call → Prop
  | [] => True
  | c :: rest => c.op.Orderly (s.withEnv c.env) ∧ RunsOrderly (s.step c) rest

/-- One call. -/
theorem call_committed (h : Consistent s) {c : Call}
    (hop : c.op.isLocal = true ∨ c.op.shrinks = true) (hord : c.op.Orderly (s.withEnv c.env))
    {r : Reply} (hok : s.call c = .ok r s') : Committed s s' := by
  have hsame : Commits s (s.withEnv c.env) := .of_none rfl rfl
  have hc : Committed (s.withEnv c.env) s' := by
    rcases hop with hlocal | hcut
    · have hspec := exec_committed (@Consistent.withEnv s h c.env) hlocal hord
      have hdone := wp_ok hspec hok
      exact hdone
    · have hspec := exec_cut_committed (@Consistent.withEnv s h c.env) hcut
      have hdone := wp_ok hspec hok
      exact hdone
  exact ⟨hc.1, hsame.trans hc.2⟩

theorem run_committed (h : Consistent s) {calls : List Call}
    (hops : ∀ c ∈ calls, c.op.isLocal = true ∨ c.op.shrinks = true) (hok : s.AllOk calls)
    (hord : s.RunsOrderly calls) : Committed s (s.run calls) := by
  induction calls generalizing s with
  | nil => exact ⟨h, .refl⟩
  | cons c calls ih =>
      obtain ⟨⟨r, s', hcall⟩, hok⟩ := hok
      have hstep : s.step c = s' := by
        unfold step
        rw [hcall]
        rfl
      obtain ⟨h', hc⟩ := call_committed h (hops c List.mem_cons_self) hord.1 hcall
      have hord := hord.2
      rw [hstep] at hok hord
      rw [run_cons, hstep]
      exact (ih h' (fun c' hc' => hops c' (List.mem_cons_of_mem _ hc')) hok hord).trans hc

end Vfs

/-- In any run whose calls all return and meet the condition, every commit, also
one in the middle of a call, lists for each file, in its row or in the chain the row
names, refs that open their slots. -/
theorem commits_intact {s : Vfs} (hs : Starts s) (hp : s.pendingFree = []) (hw : s.Whole)
    (hfloor : s.cowFloorGen ≤ s.tree.nextChunkGen) {calls : List Call}
    (hops : ∀ c ∈ calls, c.op.isLocal = true ∨ c.op.shrinks = true)
    (hok : s.AllOk calls) (hord : s.RunsOrderly calls) :
    ∀ k ∈ (s.run calls).container.history, k ∈ s.container.history ∨
      k.Intact s.container.fileKey := by
  have hrun := Vfs.run_committed ⟨hs.owned hp, hw, .inr hp, hfloor⟩ hops hok hord
  exact hrun.2.intact

/-! ## A truncate that recycles -/

/-- Whether every call of the run returns. -/
def Vfs.allReturn (s : Vfs) : List Call → Bool
  | [] => true
  | c :: rest => returned (s.call c) && (s.step c).allReturn rest

theorem Vfs.allOk_of_allReturn {s : Vfs} {calls : List Call} (h : s.allReturn calls = true) :
    s.AllOk calls := by
  induction calls generalizing s with
  | nil => exact trivial
  | cons c rest ih =>
      obtain ⟨hc, hrest⟩ := Bool.and_eq_true_iff.mp h
      exact ⟨exists_of_returned hc, ih hrest⟩

/-- The inline ref to chunk `idx` of file `f` is not there for a commit that
returned. -/
def Commit.loses (key : FileId → SubKey) (f : FileId) (idx : Nat) (k : Commit) : Bool :=
  k.done && match k.blob.rows.get? f with
    | some (chunks, none) => chunks[idx]?.any fun r =>
        (k.slots r.id (key f) (chunkAad f (idx % 2 ^ 32) r.generation)).isNone
    | _ => false

theorem Commit.not_intact_of_loses {key : FileId → SubKey} {f : FileId} {idx : Nat} {k : Commit}
    (h : k.loses key f idx = true) : k.done = true ∧ ¬ k.Intact key := by
  obtain ⟨hdone, hlost⟩ := Bool.and_eq_true_iff.mp h
  refine ⟨hdone, fun hi => ?_⟩
  split at hlost
  · next chunks hrow =>
      obtain ⟨r, hr, hnone⟩ := (Option.any_eq_true _ _).mp hlost
      obtain ⟨refs, hlists, hopens⟩ := hi f _ hrow
      have hlists : refs = chunks := hlists
      exact hopens idx r (by rw [hlists, hr]) (Option.isNone_iff_eq_none.mp hnone)
  · cases hlost

/-- Room for two slots. A write makes the first chunk of `f` newer than any
flush; the slot of a second file is waiting. -/
def fullCalls : List Call :=
  [ (Op.setMaxVaultSize (32768 + 2 * 4124)).quiet, (Op.create 1 "f" 0o644).quiet,
    (Op.create 1 "g" 0o644).quiet, (Op.write 2 0 [1, 2]).quiet, (Op.truncate 2 1).quiet,
    (Op.truncate 3 4096).quiet, (Op.unlink 1 "g").quiet, (Op.truncate 2 8192).quiet ]

/-- The last call clears the rest of the first chunk in its own slot, and the
flush that recycles a slot for the second chunk commits the old ref to it. -/
theorem truncate_commits_lost_chunk :
    roomyVfs.AllOk fullCalls ∧ ∃ k ∈ (roomyVfs.run fullCalls).container.history,
      k ∉ roomyVfs.container.history ∧ k.done = true ∧
        ¬ k.Intact roomyVfs.container.fileKey := by
  have heval : (roomyVfs.allReturn fullCalls && (roomyVfs.run fullCalls).container.history.any
      (Commit.loses roomyVfs.container.fileKey 2 0)) = true := by decide +kernel
  obtain ⟨hreturn, hany⟩ := Bool.and_eq_true_iff.mp heval
  obtain ⟨k, hk, hloses⟩ := List.any_eq_true.mp hany
  obtain ⟨hdone, hlost⟩ := Commit.not_intact_of_loses hloses
  exact ⟨Vfs.allOk_of_allReturn hreturn, k, hk, List.not_mem_nil, hdone, hlost⟩

/-- A truncate of an empty file rewrites nothing. -/
theorem Op.orderly_of_empty {s : Vfs} {f : FileId} {newSize : Nat}
    (h : (s.tree.inodes.get? f).map Inode.chunks = some []) :
    (Op.truncate f newSize).Orderly s := by
  intro i oldReal count hi _ _
  rw [hi] at h
  have hnil : i.chunks = [] := Option.some.inj h
  rw [hnil, List.take_nil]
  refine .inr ⟨fun _ _ _ hr => ?_, .inl (Nat.zero_le _)⟩
  cases hr

/-- Three empty files in a vault with room for two slots. The third is extended
by a slot that a flush inside the call recycles. -/
def recyclingCalls : List Call :=
  [ (Op.setMaxVaultSize (32768 + 2 * 4124)).quiet, (Op.create 1 "f" 0o644).quiet,
    (Op.create 1 "g" 0o644).quiet, (Op.create 1 "h" 0o644).quiet, (Op.truncate 2 4096).quiet,
    (Op.truncate 3 4096).quiet, (Op.unlink 1 "g").quiet, (Op.truncate 4 4096).quiet ]

theorem commits_intact_recycling :
    (roomyVfs.run recyclingCalls).container.history ≠ [] ∧
      ∀ k ∈ (roomyVfs.run recyclingCalls).container.history, k ∈ roomyVfs.container.history ∨
        k.Intact roomyVfs.container.fileKey := by
  have heval : (roomyVfs.allReturn recyclingCalls &&
      !(roomyVfs.run recyclingCalls).container.history.isEmpty) = true := by decide +kernel
  obtain ⟨hreturn, hsome⟩ := Bool.and_eq_true_iff.mp heval
  refine ⟨?_, commits_intact (Or.inl rfl) rfl (Vfs.whole_new rfl) (by decide) (by decide)
    (Vfs.allOk_of_allReturn hreturn) ?_⟩
  · intro hnil
    rw [hnil] at hsome
    cases hsome
  · exact ⟨trivial, trivial, trivial, trivial, Op.orderly_of_empty (by decide +kernel),
      Op.orderly_of_empty (by decide +kernel), trivial, Op.orderly_of_empty (by decide +kernel),
      trivial⟩

end Luksbox
