import Luksbox.Proofs.SlotPath

/-!
# A call's view of its file

While `write` and `truncate` work, the inode keeps its old refs; the call has
its own. `View` ties the two together: every ref of the view is one of the old
ones, untouched, or one this call has sealed under the right file, index and
generation. It also accounts for the slots, so that at the end the refs and
the retired slots can be exchanged for the old ones without losing or doubling
any.
-/

namespace Luksbox

open Lib Relation

/-- What a call is allowed: a permit, whether it may flush at all, whether it may
overwrite a chunk of its file before it does, which slots it may retire before it
does, and how many chunks it may have appended. `sooner` and `covers` narrow this
down for what comes before its last rewrite, the one of the size header. -/
structure Plan where
  permit : Permit
  flushes : Prop
  early : Prop
  sooner : Prop
  copies : ChunkId → Prop
  covers : ChunkId → Prop
  grows : Nat → Prop

/-- The same plan for the part of a call in which `new` chunks have been appended. -/
def Plan.grown (p : Plan) (new : Nat) : Plan := { p with grows := (· = new) }

/-- And for the part before the size header. -/
def Plan.first (p : Plan) (grows : Nat → Prop) : Plan :=
  { p with early := p.early ∧ p.sooner, copies := fun x => p.copies x ∧ p.covers x, grows := grows }

/-- As long as nothing was flushed, `k` slots taken are those of appended chunks and
one for each slot that was retired. -/
def Plan.Spends (p : Plan) (c₀ : Cfg) (k : Nat) : Prop :=
  ∃ new ids, k = new + ids.length ∧ p.grows new ∧
    (c₀.vfs.cowFloorGen ≤ c₀.vfs.tree.nextChunkGen →
      (ids : List ChunkId).Nodup ∧ ∀ x ∈ ids, p.copies x)

/-- And one more is about to be taken, for a chunk that is copied. -/
def Plan.Copying (p : Plan) (c₀ : Cfg) (k : Nat) : Prop :=
  ∃ new id ids, k = new + ids.length ∧ p.grows new ∧
    (c₀.vfs.cowFloorGen ≤ c₀.vfs.tree.nextChunkGen →
      (id :: ids : List ChunkId).Nodup ∧ ∀ x ∈ id :: ids, p.copies x)

/-- Where a call starts: nothing in flight, and the refs it works on are refs
of its file. -/
structure Base (f : FileId) (c₀ : Cfg) (base : List ChunkRef) : Prop where
  ledger : Ledger c₀
  flight : c₀.flight = []
  broken : c₀.broken = []
  refs : ∃ i, c₀.vfs.tree.inodes.get? f = some i ∧
    ∀ x, (base.map ChunkRef.id).count x ≤ i.dataIds.count x

/-- One ref of the view: untouched, or sealed by this call. -/
def ViewAt (f : FileId) (c₀ : Cfg) (base : List ChunkRef) (c : Cfg) (pts : Nat → Option Chunk)
    (idx : Nat) (r : ChunkRef) : Prop :=
  match pts idx with
  | none => base[idx]? = some r ∧ c.vfs.container.slots r.id = c₀.vfs.container.slots r.id
  | some pt => c.vfs.container.slots r.id = c₀.vfs.sealedAs f idx r.generation pt ∧
      (r.id ∈ c.flight ∨ (r.id ∈ c.broken ∧ idx < base.length)) ∧
      c₀.vfs.tree.nextChunkGen ≤ r.generation ∧ r.generation < c.vfs.tree.nextChunkGen

/-- After a flush that recycled: slots were waiting, none is any more, those that
were are part of the room, and the file's chunks are below the floor. -/
structure Since (c₀ c : Cfg) : Prop where
  commits : c₀.vfs.commits
  waiting : c₀.vfs.pendingFree ≠ []
  pending : c.vfs.pendingFree = []
  room : c₀.vfs.room + c₀.vfs.pendingFree.length ≤ c.vfs.room + c.flight.length
  floor : c₀.vfs.tree.nextChunkGen ≤ c.vfs.cowFloorGen

theorem Since.trans_calm {c₀ c c' : Cfg} (h : Since c₀ c) (hcalm : Calm c c') : Since c₀ c' :=
  ⟨h.commits, h.waiting, hcalm.pending.trans h.pending, h.room.trans hcalm.room, by
    rw [hcalm.floor]
    exact h.floor⟩

/-- Nothing is left to recycle. -/
theorem Since.not_recycles {c₀ c : Cfg} (h : Since c₀ c) {recycleMin : Nat} :
    ¬ Recycles recycleMin c.vfs := by
  rintro ⟨-, hlen⟩
  rw [h.pending, List.length_nil] at hlen
  omega

theorem Recycled.since {recycleMin : Nat} {c₀ c c' : Cfg} (h : Recycled recycleMin c c')
    (hframe : Frame c₀.vfs c.vfs) (hcalm : Calm c₀ c) : Since c₀ c' := by
  refine ⟨(hcalm.commits hframe.tolerated).mp h.commits, fun hnil => ?_, h.pending, ?_,
    hframe.nextChunkGen.trans h.floor⟩
  · have hlen := h.recycles.2
    rw [hcalm.pending, hnil, List.length_nil] at hlen
    omega
  · have hnone := h.recycles.1.room
    have hpaid := hcalm.room
    have hgot := h.room
    rw [hcalm.pending] at hgot
    omega

/-- How far a call has got: no flush so far, or one that recycled. -/
def Plan.Mode (p : Plan) (c₀ c : Cfg) : Prop :=
  (Calm c₀ c ∧ (c.broken = [] ∨ p.early)) ∨ (p.flushes ∧ Since c₀ c)

structure View (p : Plan) (f : FileId) (c₀ : Cfg) (base : List ChunkRef) (c : Cfg)
    (refs : List ChunkRef) (retired : List ChunkId) (pts : Nat → Option Chunk) : Prop where
  path : Path p.permit f c₀ c
  length : base.length ≤ refs.length
  count : ∀ x, (refs.map ChunkRef.id).count x + retired.count x =
    (base.map ChunkRef.id).count x + c.flight.count x
  content : ∀ idx r, refs[idx]? = some r → ViewAt f c₀ base c pts idx r
  mode : p.Mode c₀ c
  grown : p.grows (refs.length - base.length)
  spent : Calm c₀ c → c₀.vfs.cowFloorGen ≤ c₀.vfs.tree.nextChunkGen →
    ∀ x ∈ retired, p.copies x

/-- What the caller grants for the chunks in `touched` as long as fewer than
`need` slots are in flight. -/
structure Grants (p : Plan) (c₀ : Cfg) (base : List ChunkRef) (touched : Nat → Prop)
    (need : Nat) : Prop where
  copy : ∀ idx r, touched idx → base[idx]? = some r → r.generation < c₀.vfs.cowFloorGen →
    p.copies r.id
  fresh : ∀ c, Frame c₀.vfs c.vfs → Calm c₀ c → p.Spends c₀ c.flight.length →
    ∀ idx r, touched idx → base[idx]? = some r → c₀.vfs.cowFloorGen ≤ r.generation →
    p.permit.inPlace r.id ∧ p.early
  full : ∀ c, Frame c₀.vfs c.vfs → Calm c₀ c → c.flight.length < need →
    p.Copying c₀ c.flight.length → Full c.vfs →
    ¬ (Recycles pendingFreeRecycleMin c.vfs ∧ c.vfs.commits) →
    ∀ idx r, touched idx → base[idx]? = some r → p.permit.inPlace r.id ∧ p.early
  recycle : (c₀.vfs.cowFloorGen ≤ c₀.vfs.tree.nextChunkGen → ∃ idx r, touched idx ∧
      base[idx]? = some r ∧ r.generation < c₀.vfs.cowFloorGen) →
    ∀ c, Frame c₀.vfs c.vfs → Calm c₀ c → c.flight.length < need →
    p.Copying c₀ c.flight.length →
    Recycles pendingFreeRecycleMin c.vfs → c.vfs.commits →
    p.flushes ∧ (p.early → p.permit.midFlush)
  after : p.flushes → ∀ c, Frame c₀.vfs c.vfs → Since c₀ c → c.flight.length < need →
    ∀ idx r, touched idx → base[idx]? = some r →
    (Full c.vfs ∨ c.vfs.cowFloorGen ≤ r.generation) → p.permit.inPlace r.id

/-- For fewer chunks and fewer slots. -/
theorem Grants.mono {p : Plan} {c₀ : Cfg} {base : List ChunkRef} {touched some : Nat → Prop}
    {need fewer : Nat} (h : Grants p c₀ base touched need)
    (hsub : ∀ idx r, base[idx]? = .some r → some idx → touched idx) (hle : fewer ≤ need) :
    Grants p c₀ base some fewer where
  copy := fun idx r ht hr => h.copy idx r (hsub idx r hr ht) hr
  fresh := fun c hframe hcalm hspends idx r ht hr =>
    h.fresh c hframe hcalm hspends idx r (hsub idx r hr ht) hr
  full := fun c hframe hcalm hlen hspends hfull hno idx r ht hr =>
    h.full c hframe hcalm (hlen.trans_le hle) hspends hfull hno idx r (hsub idx r hr ht) hr
  recycle := fun hold c hframe hcalm hlen => h.recycle (fun hfloor =>
    (hold hfloor).imp fun idx hr => hr.imp fun r hr => ⟨hsub idx r hr.2.1 hr.1, hr.2⟩) c hframe
    hcalm (hlen.trans_le hle)
  after := fun hf c hframe hs hlen idx r ht hr =>
    h.after hf c hframe hs (hlen.trans_le hle) idx r (hsub idx r hr ht) hr

/-- What the view has at an index. -/
def contentAt (f : FileId) (c₀ : Cfg) (base : List ChunkRef) (pts : Nat → Option Chunk)
    (idx : Nat) : Option Chunk :=
  match pts idx with
  | none => base[idx]?.bind fun r => c₀.vfs.opens f idx r
  | some pt => some pt

theorem count_set {l : List ChunkId} {i : Nat} {a b x : ChunkId} (h : l[i]? = some b) :
    (l.set i a).count x + (if b = x then 1 else 0) = l.count x + if a = x then 1 else 0 := by
  induction l generalizing i with
  | nil => cases h
  | cons y l ih =>
      cases i with
      | zero =>
          injection h with h
          subst h
          simp only [List.set_cons_zero, List.count_cons, beq_iff_eq]
          omega
      | succ i =>
          have := ih h
          simp only [List.set_cons_succ, List.count_cons, beq_iff_eq]
          omega

/-- Equal ids at different positions count twice. -/
theorem two_le_count {l : List ChunkId} {i j : Nat} {x : ChunkId} (hij : i ≠ j)
    (hi : l[i]? = some x) (hj : l[j]? = some x) : 2 ≤ l.count x := by
  induction l generalizing i j with
  | nil => cases hi
  | cons y l ih =>
      rw [List.count_cons]
      cases i with
      | zero =>
          cases j with
          | zero => exact absurd rfl hij
          | succ j =>
              injection hi with hi
              have hj : l[j]? = some x := hj
              have hpos := List.count_pos_iff.mpr (List.mem_of_getElem? hj)
              rw [if_pos (beq_iff_eq.mpr hi)]
              omega
      | succ i =>
          cases j with
          | zero =>
              injection hj with hj
              have hi : l[i]? = some x := hi
              have hpos := List.count_pos_iff.mpr (List.mem_of_getElem? hi)
              rw [if_pos (beq_iff_eq.mpr hj)]
              omega
          | succ j =>
              have := ih (fun h => hij (by rw [h])) hi hj
              omega

/-- What is broken was granted. -/
theorem Path.broken_granted {P : Permit} {f : FileId} {c c' : Cfg} (hp : Path P f c c')
    (h : ∀ x ∈ c.broken, P.inPlace x) : ∀ x ∈ c'.broken, P.inPlace x := by
  induction hp with
  | refl => exact h
  | tail _ hs ih =>
      cases hs with
      | inPlace off slot written hi hid hperm =>
          intro x hx
          rcases List.mem_cons.mp hx with rfl | hx
          · exact hperm
          · exact ih x hx
      | _ => exact ih

/-- The data chunks of all files are the same ones. -/
theorem Frame.dataIds {s s' : Vfs} (h : Frame s s') (x : ChunkId) :
    s'.tree.inodes.tally Inode.dataIds x = s.tree.inodes.tally Inode.dataIds x := by
  have hbare : ∀ i : Inode, i.dataIds = Inode.dataIds i.bare := fun _ => rfl
  exact OrdMap.tally_congr hbare h.inodes

namespace View

variable {p : Plan} {f : FileId} {c₀ c c' : Cfg} {base refs : List ChunkRef}
  {retired : List ChunkId} {pts : Nat → Option Chunk}

/-- The view before anything was done. -/
theorem start (hb : Base f c₀ base) (hgrows : p.grows 0) :
    View p f c₀ base c₀ base [] fun _ => none where
  path := ReflTransGen.refl
  length := le_refl _
  count := fun x => by rw [hb.flight]
  content := fun _ _ hr => ⟨hr, rfl⟩
  mode := Or.inl ⟨Calm.refl, Or.inl hb.broken⟩
  grown := by
    rw [Nat.sub_self]
    exact hgrows
  spent := fun _ _ _ hx => nomatch hx

theorem ledger (h : View p f c₀ base c refs retired pts) (hb : Base f c₀ base) : Ledger c :=
  hb.ledger.path h.path

/-- The inode still has the old refs. -/
theorem inode (h : View p f c₀ base c refs retired pts) (hb : Base f c₀ base) :
    ∃ i, c.vfs.tree.inodes.get? f = some i ∧
      ∀ x, (base.map ChunkRef.id).count x ≤ i.dataIds.count x := by
  obtain ⟨i₀, hi₀, hle⟩ := hb.refs
  obtain ⟨i, hi, hbare⟩ := (Path.frame h.path).inode hi₀
  refine ⟨i, hi, fun x => ?_⟩
  unfold Inode.dataIds at hle ⊢
  rw [Inode.bare_chunks hbare]
  exact hle x

/-- The old refs' ids are counted among the data chunks. -/
theorem base_le_tally (h : View p f c₀ base c refs retired pts) (hb : Base f c₀ base)
    (x : ChunkId) : (base.map ChunkRef.id).count x ≤ c.vfs.tree.inodes.tally Inode.dataIds x := by
  obtain ⟨i, hi, hle⟩ := h.inode hb
  rw [OrdMap.tally_of_get? hi]
  have := hle x
  omega

/-- No slot is in the view twice. -/
theorem once (h : View p f c₀ base c refs retired pts) (hb : Base f c₀ base) (x : ChunkId) :
    (refs.map ChunkRef.id).count x + retired.count x ≤ 1 := by
  have hled := (h.ledger hb).once x
  have hbase := h.base_le_tally hb x
  unfold Cfg.held at hled
  rw [refIds_tally] at hled
  rw [h.count x]
  omega

theorem guarded (h : View p f c₀ base c refs retired pts) (hb : Base f c₀ base) {r : ChunkRef}
    (hr : r ∈ refs) : Guarded c.vfs r.id := by
  refine (h.ledger hb).guarded ?_
  have hpos := List.count_pos_iff.mpr (List.mem_map_of_mem (f := ChunkRef.id) hr)
  have hcount := h.count r.id
  have hbase := h.base_le_tally hb r.id
  by_cases hfl : 0 < c.flight.count r.id
  · exact Or.inl (List.count_pos_iff.mp hfl)
  · exact Or.inr (by omega)

/-- A ref that is not in flight is one of the file's own. -/
theorem own (h : View p f c₀ base c refs retired pts) (hb : Base f c₀ base) {r : ChunkRef}
    (hr : r ∈ refs) (hfl : r.id ∉ c.flight) :
    ∃ i, c.vfs.tree.inodes.get? f = some i ∧ r.id ∈ i.dataIds := by
  obtain ⟨i, hi, hle⟩ := h.inode hb
  refine ⟨i, hi, ?_⟩
  have hpos := List.count_pos_iff.mpr (List.mem_map_of_mem (f := ChunkRef.id) hr)
  have hcount := h.count r.id
  rw [List.count_eq_zero.mpr hfl] at hcount
  have hle := hle r.id
  exact List.count_pos_iff.mp (by omega)

/-- How many slots are in flight. -/
theorem flight_length (h : View p f c₀ base c refs retired pts) :
    c.flight.length + base.length = refs.length + retired.length := by
  have hperm : (refs.map ChunkRef.id ++ retired).Perm (base.map ChunkRef.id ++ c.flight) := by
    rw [List.perm_iff_count]
    intro x
    rw [List.count_append, List.count_append]
    exact h.count x
  have := hperm.length_eq
  rw [List.length_append, List.length_append, List.length_map, List.length_map] at this
  omega

/-- For a plan that allows as much, with its own bound on the chunks appended. -/
theorem relax (h : View p f c₀ base c refs retired pts) {early : Prop}
    {copies : ChunkId → Prop} {grows : Nat → Prop} (hearly : p.early → early)
    (hcopies : ∀ x, p.copies x → copies x) (hgrows : grows (refs.length - base.length)) :
    View { p with early := early, copies := copies, grows := grows } f c₀ base c refs retired
      pts :=
  ⟨h.path, h.length, h.count, h.content,
    h.mode.imp (fun hcalm => ⟨hcalm.1, hcalm.2.imp id hearly⟩) id, hgrows,
    fun hcalm hfloor x hx => hcopies x (h.spent hcalm hfloor x hx)⟩

/-- What is waiting stays waiting until a flush, so a call that has not flushed had
not flushed before. -/
theorem calm_back (h : View p f c₀ base c refs retired pts)
    (hpend : c.vfs.pendingFree = [] → c'.vfs.pendingFree = []) (hcalm : Calm c₀ c') :
    Calm c₀ c := by
  rcases h.mode with ⟨hc, -⟩ | ⟨-, hsince⟩
  · exact hc
  · exact absurd (hcalm.pending.symm.trans (hpend hsince.pending)) hsince.waiting

/-- No slot was retired twice. -/
theorem retired_nodup (h : View p f c₀ base c refs retired pts) (hb : Base f c₀ base) :
    retired.Nodup := by
  refine List.nodup_iff_count_le_one.mpr fun x => ?_
  have := h.once hb x
  omega

/-- Where the slots in flight come from. -/
theorem spends (h : View p f c₀ base c refs retired pts) (hb : Base f c₀ base)
    (hcalm : Calm c₀ c) : p.Spends c₀ c.flight.length := by
  have hflight := h.flight_length
  have hlen := h.length
  exact ⟨refs.length - base.length, retired, by omega, h.grown,
    fun hfloor => ⟨h.retired_nodup hb, h.spent hcalm hfloor⟩⟩

/-- A chunk below the floor is one of the old ones. -/
theorem below (h : View p f c₀ base c refs retired pts) {touched : Nat → Prop} {idx : Nat}
    {cur : ChunkRef} (hcur : refs[idx]? = some cur) (ht : idx < base.length → touched idx)
    (hold : cur.generation < c₀.vfs.cowFloorGen)
    (hfloor : c₀.vfs.cowFloorGen ≤ c₀.vfs.tree.nextChunkGen) :
    touched idx ∧ base[idx]? = some cur := by
  have hat := h.content idx cur hcur
  unfold ViewAt at hat
  split at hat
  · exact ⟨ht (List.getElem?_eq_some_iff.mp hat.1).1, hat.1⟩
  · have := hat.2.2.1
    omega

/-- So its slot may be retired. -/
theorem copied (h : View p f c₀ base c refs retired pts) {touched : Nat → Prop} {need : Nat}
    (hg : Grants p c₀ base touched need) {idx : Nat} {cur : ChunkRef}
    (hcur : refs[idx]? = some cur) (ht : idx < base.length → touched idx)
    (hold : cur.generation < c₀.vfs.cowFloorGen)
    (hfloor : c₀.vfs.cowFloorGen ≤ c₀.vfs.tree.nextChunkGen) : p.copies cur.id := by
  obtain ⟨ht, hr⟩ := h.below hcur ht hold hfloor
  exact hg.copy idx cur ht hr hold

/-- A chunk below the floor takes one more. -/
theorem copying (h : View p f c₀ base c refs retired pts) (hb : Base f c₀ base)
    {touched : Nat → Prop} {need : Nat} (hg : Grants p c₀ base touched need) {idx : Nat}
    {cur : ChunkRef} (hcur : refs[idx]? = some cur) (ht : idx < base.length → touched idx)
    (hcalm : Calm c₀ c) (hold : cur.generation < c₀.vfs.cowFloorGen) :
    p.Copying c₀ c.flight.length := by
  have hflight := h.flight_length
  have hlen := h.length
  refine ⟨refs.length - base.length, cur.id, retired, by omega, h.grown, fun hfloor => ⟨?_, ?_⟩⟩
  · refine List.nodup_cons.mpr ⟨fun hin => ?_, h.retired_nodup hb⟩
    have honce := h.once hb cur.id
    have hpos := List.count_pos_iff.mpr hin
    have hcount := List.count_pos_iff.mpr
      (List.mem_map_of_mem (f := ChunkRef.id) (List.mem_of_getElem? hcur))
    omega
  · intro x hx
    rcases List.mem_cons.mp hx with rfl | hx
    · exact h.copied hg hcur ht hold hfloor
    · exact h.spent hcalm hfloor x hx

/-- A calm step that leaves the call's slots alone. -/
theorem of_calm (h : View p f c₀ base c refs retired pts) (hp : Path p.permit f c c')
    (hcalm : Calm c c') (hst : c'.flight = c.flight) (hbr : c'.broken = c.broken)
    (hsl : ∀ r ∈ refs, c'.vfs.container.slots r.id = c.vfs.container.slots r.id) :
    View p f c₀ base c' refs retired pts where
  path := h.path.trans hp
  length := h.length
  count := fun x => by rw [hst]; exact h.count x
  content := by
    intro idx r hr
    have hat := h.content idx r hr
    have heq := hsl r (List.mem_of_getElem? hr)
    have hgen := (Path.frame hp).nextChunkGen
    unfold ViewAt at hat ⊢
    split at hat
    · exact ⟨hat.1, heq.trans hat.2⟩
    · rw [heq, hst, hbr]
      exact ⟨hat.1, hat.2.1, hat.2.2.1, hat.2.2.2.trans_le hgen⟩
  mode := by
    rcases h.mode with ⟨hc, hb⟩ | ⟨hf, hsince⟩
    · exact Or.inl ⟨hc.trans hcalm, by rw [hbr]; exact hb⟩
    · exact Or.inr ⟨hf, hsince.trans_calm hcalm⟩
  grown := h.grown
  spent := fun hc => h.spent (h.calm_back (fun hnil => hcalm.pending.trans hnil) hc)

/-- The slot of a ref of the view opens to what the view has there. -/
theorem opens_eq (h : View p f c₀ base c refs retired pts) {idx : Nat} {r : ChunkRef}
    (hr : refs[idx]? = some r) : c.vfs.opens f idx r = contentAt f c₀ base pts idx := by
  have hat := h.content idx r hr
  have hkey := @Frame.fileKey _ _ (Path.frame h.path) f
  unfold ViewAt at hat
  unfold contentAt Vfs.opens
  rw [hkey]
  split at hat
  · rw [hat.1, hat.2]
    rfl
  · rw [hat.1]
    simp [Vfs.sealedAs, Slot.sealed]

/-- One chunk rewritten. -/
theorem rewrote (h : View p f c₀ base c refs retired pts) (hb : Base f c₀ base) {idx : Nat}
    {cur newRef : ChunkRef} {old : Option ChunkId} {pt : Chunk} {early : Prop}
    (hcur : refs[idx]? = some cur) (hidx : idx < base.length ∨ cur.id ∈ c.flight)
    (hp : Path p.permit f c c') (hw : Vfs.Rewrote early c f idx cur pt newRef old c')
    (hcopy : ∀ x, old = some x → Calm c₀ c →
      c₀.vfs.cowFloorGen ≤ c₀.vfs.tree.nextChunkGen → p.copies x)
    (hmode : p.Mode c₀ c') :
    View p f c₀ base c' (refs.set idx newRef) (retired ++ old.toList)
      (Function.update pts idx (some pt)) := by
  have hkey : ∀ g, c.vfs.sealedAs f idx g pt = c₀.vfs.sealedAs f idx g pt := by
    intro g
    unfold Vfs.sealedAs
    rw [(Path.frame h.path).fileKey]
  have hcurId : (refs.map ChunkRef.id)[idx]? = some cur.id := by
    rw [List.getElem?_map, hcur]
    rfl
  have hflight : ∀ x, x ∈ c.flight → x ∈ c'.flight := by
    intro x hx
    rcases hw.place with ⟨-, -, hf, -⟩ | ⟨-, hf, -⟩
    · rw [hf]
      exact hx
    · rw [hf]
      exact List.mem_cons_of_mem _ hx
  have hpend : c.vfs.pendingFree = [] → c'.vfs.pendingFree = [] := by
    intro hnil
    rcases hw.onward with hcalm | ⟨-, hrec⟩
    · exact hcalm.pending.trans hnil
    · exact hrec.pending
  have hbroken : ∀ x, x ∈ c.broken → x ∈ c'.broken := by
    intro x hx
    rcases hw.place with ⟨-, -, -, ⟨-, hbr⟩ | ⟨-, hbr, -⟩⟩ | ⟨-, -, hbr, -⟩
    · rw [hbr]
      exact hx
    · rw [hbr]
      exact List.mem_cons_of_mem _ hx
    · rw [hbr]
      exact hx
  -- the new slot is not the slot of any other ref
  have hother : ∀ idx' r, idx' ≠ idx → refs[idx']? = some r → r.id ≠ newRef.id := by
    intro idx' r hne hr heq
    have hrId : (refs.map ChunkRef.id)[idx']? = some r.id := by
      rw [List.getElem?_map, hr]
      rfl
    rcases hw.place with ⟨-, hid, -⟩ | ⟨-, hf, -⟩
    · have htwo := two_le_count hne hrId (by rw [heq, hid]; exact hcurId)
      have := h.once hb r.id
      omega
    · have hled := ((h.ledger hb).path hp).once newRef.id
      have hbase := h.base_le_tally hb newRef.id
      have hin : (refs.map ChunkRef.id).count newRef.id = 0 := by
        have htally : c'.vfs.tree.inodes.tally Inode.dataIds newRef.id =
            c.vfs.tree.inodes.tally Inode.dataIds newRef.id := (Path.frame hp).dataIds _
        unfold Cfg.held at hled
        rw [refIds_tally, htally, hf, List.count_cons_self] at hled
        have := h.count newRef.id
        omega
      rw [List.count_eq_zero] at hin
      exact hin (heq ▸ List.mem_of_getElem? hrId)
  refine ⟨h.path.trans hp, by rw [List.length_set]; exact h.length, ?_, ?_, hmode,
    by rw [List.length_set]; exact h.grown, ?_⟩
  · intro x
    have hset := count_set (a := newRef.id) (x := x) hcurId
    have hc := h.count x
    rw [List.map_set, List.count_append]
    rcases hw.place with ⟨rfl, hid, hf, -⟩ | ⟨rfl, hf, -⟩
    · rw [hid] at hset
      rw [hid, hf]
      simp only [Option.toList_none, List.count_nil]
      omega
    · rw [hf]
      simp only [Option.toList_some, List.count_cons, List.count_nil, beq_iff_eq]
      omega
  · intro idx' r hr
    unfold ViewAt
    by_cases hne : idx' = idx
    · subst hne
      have hlen : idx' < refs.length := (List.getElem?_eq_some_iff.mp hcur).1
      rw [List.getElem?_set_self hlen] at hr
      injection hr with hr
      subst hr
      rw [Function.update_self]
      refine ⟨by rw [hw.slot, hkey], ?_, ?_, hw.bumped⟩
      · rcases hw.place with ⟨-, hid, hf, ⟨hin, -⟩ | ⟨hout, hbr, -⟩⟩ | ⟨-, hf, -⟩
        · exact Or.inl (by rw [hid]; exact hflight _ hin)
        · exact Or.inr ⟨by rw [hbr, hid]; exact List.mem_cons_self, hidx.resolve_right hout⟩
        · exact Or.inl (by rw [hf]; exact List.mem_cons_self)
      · rw [hw.generation]
        exact (Path.frame h.path).nextChunkGen
    · rw [List.getElem?_set_ne (fun he => hne he.symm)] at hr
      have hat := h.content idx' r hr
      have hslot := hw.others r.id (h.guarded hb (List.mem_of_getElem? hr)) (hother idx' r hne hr)
      unfold ViewAt at hat
      rw [Function.update_of_ne hne]
      split at hat
      · exact ⟨hat.1, hslot.trans hat.2⟩
      · exact ⟨hslot.trans hat.1, hat.2.1.imp (hflight _) fun hx => ⟨hbroken _ hx.1, hx.2⟩,
          hat.2.2.1, hat.2.2.2.trans_le (Path.frame hp).nextChunkGen⟩
  · intro hcalm hfloor x hx
    have hback := h.calm_back hpend hcalm
    rcases List.mem_append.mp hx with hx | hx
    · exact h.spent hback hfloor x hx
    · exact hcopy x (Option.mem_toList.mp hx) hback hfloor

end View

end Luksbox
