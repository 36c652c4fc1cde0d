import Luksbox.Proofs.View

/-!
# What a call does to its view

The steps `write` and `truncate` are made of, each as a change of the view:
reading a chunk, rewriting one, appending a zero chunk. A step that fails ends
the call; the path it took is all that is left of it.
-/

namespace Luksbox

open Lib Relation

namespace View

variable {p : Plan} {f : FileId} {c₀ c c' : Cfg} {base refs : List ChunkRef}
  {retired : List ChunkId} {pts : Nat → Option Chunk} {touched : Nat → Prop} {need : Nat}

/-- A read returns what the view has. -/
theorem read_runs (h : View p f c₀ base c refs retired pts) {idx : Nat} {cur : ChunkRef}
    (hcur : refs[idx]? = some cur) :
    Runs p.permit f c (Vfs.readChunk f idx cur)
      (fun pt c' => View p f c₀ base c' refs retired pts ∧ c'.broken = c.broken ∧
        contentAt f c₀ base pts idx = some pt)
      (fun e _ => e ≠ .panic) := by
  refine runs_mono Vfs.readChunk_runs ?_ fun e _ _ he => he.1.1
  rintro pt c' hp ⟨hst, hsl, hpt⟩
  refine ⟨?_, hst.broken, ?_⟩
  · exact h.of_calm hp (Calm.of_steady hst (Path.frame hp).maxVaultSize) hst.flight hst.broken
      fun r _ => congrFun hsl r.id
  · rw [← h.opens_eq hcur]
    exact hpt

/-- While nothing was flushed, a flush that recycles finds nothing broken, or is
granted. -/
theorem may_flush (h : View p f c₀ base c refs retired pts) (hb : Base f c₀ base)
    (hg : Grants p c₀ base touched need) (hneed : c.flight.length < need) {idx : Nat} {cur : ChunkRef} (hcur : refs[idx]? = some cur)
    (ht : idx < base.length → touched idx) (hold : cur.generation < c.vfs.cowFloorGen)
    (hrec : Recycles pendingFreeRecycleMin c.vfs) (hcom : c.vfs.commits) :
    c.broken = [] ∨ p.permit.midFlush := by
  rcases h.mode with ⟨hcalm, hbr⟩ | ⟨-, hsince⟩
  · rw [hcalm.floor] at hold
    have hbelow := fun hfloor => (⟨idx, cur, (h.below hcur ht hold hfloor).1,
      (h.below hcur ht hold hfloor).2, hold⟩ : ∃ idx r, touched idx ∧ base[idx]? = some r ∧
        r.generation < c₀.vfs.cowFloorGen)
    exact hbr.imp id (hg.recycle hbelow c (Path.frame h.path) hcalm hneed
      (h.copying hb hg hcur ht hcalm hold) hrec hcom).2
  · exact absurd hrec hsince.not_recycles

/-- What is granted is enough to rewrite a touched chunk. -/
theorem may_rewrite (h : View p f c₀ base c refs retired pts) (hb : Base f c₀ base)
    (hg : Grants p c₀ base touched need) (hneed : c.flight.length < need) {idx : Nat}
    {cur : ChunkRef} (hcur : refs[idx]? = some cur) (ht : idx < base.length → touched idx) :
    ∃ early, (early → p.early ∨ (p.flushes ∧ Since c₀ c)) ∧
      Vfs.MayRewrite p.permit early f c cur := by
  have hmem := List.mem_of_getElem? hcur
  by_cases hfl : cur.id ∈ c.flight
  · exact ⟨False, False.elim, Or.inl hfl⟩
  have hown := h.own hb hmem hfl
  have hat := h.content idx cur hcur
  unfold ViewAt at hat
  have hgranted := Path.broken_granted h.path (by rw [hb.broken]; exact nofun)
  have hlen : ∀ {r : ChunkRef}, base[idx]? = some r → touched idx :=
    fun hr => ht (List.getElem?_eq_some_iff.mp hr).1
  rcases h.mode with ⟨hcalm, hbr⟩ | ⟨hflush, hsince⟩
  · refine ⟨p.early, Or.inl, Or.inr ⟨hown, ?_⟩⟩
    split at hat
    · refine ⟨fun hfresh => hg.fresh c (Path.frame h.path) hcalm (h.spends hb hcalm) idx cur
        (hlen hat.1) hat.1 ?_, ?_⟩
      · rw [← hcalm.floor]
        exact hfresh
      · intro c' hp hf hold hfull hstuck
        have hneed' : c'.flight.length < need := by
          rw [hf]
          exact hneed
        rw [hcalm.floor] at hold
        have hcopying := h.copying hb hg hcur ht hcalm hold
        rcases hstuck with ⟨hcalm', hno⟩ | hrec
        · obtain ⟨hperm, hearly⟩ := hg.full c' (Path.frame (h.path.trans hp)) (hcalm.trans hcalm')
            hneed' (by rw [hf]; exact hcopying) hfull hno idx cur (hlen hat.1) hat.1
          exact ⟨hperm, Or.inl hearly⟩
        · -- recycling was not enough
          have hflush := hg.recycle (fun _ => ⟨idx, cur, hlen hat.1, hat.1, hold⟩) c
            (Path.frame h.path) hcalm hneed hcopying hrec.recycles hrec.commits
          have hsince := hrec.since (Path.frame h.path) hcalm
          exact ⟨hg.after hflush.1 c' (Path.frame (h.path.trans hp)) hsince hneed' idx cur
            (hlen hat.1) hat.1 (Or.inl hfull), Or.inr hrec⟩
    · have hin := (hat.2.1.resolve_left hfl).1
      have hearly := hbr.resolve_left (List.ne_nil_of_mem hin)
      exact ⟨fun _ => ⟨hgranted _ hin, hearly⟩,
        fun c' _ _ _ _ _ => ⟨hgranted _ hin, Or.inl hearly⟩⟩
  · refine ⟨True, fun _ => Or.inr ⟨hflush, hsince⟩, Or.inr ⟨hown, ?_⟩⟩
    split at hat
    · refine ⟨fun hfresh => ⟨?_, trivial⟩, fun c' hp hf _ hfull hstuck => ⟨?_, Or.inl trivial⟩⟩
      · exact hg.after hflush c (Path.frame h.path) hsince hneed idx cur (hlen hat.1) hat.1
          (Or.inr hfresh)
      · rcases hstuck with ⟨hcalm, -⟩ | hrec
        · have hneed' : c'.flight.length < need := by
            rw [hf]
            exact hneed
          exact hg.after hflush c' (Path.frame (h.path.trans hp)) (hsince.trans_calm hcalm) hneed'
            idx cur (hlen hat.1) hat.1 (Or.inl hfull)
        · exact absurd hrec.recycles hsince.not_recycles
    · have hperm := hgranted _ (hat.2.1.resolve_left hfl).1
      exact ⟨fun _ => ⟨hperm, trivial⟩, fun c' _ _ _ _ _ => ⟨hperm, Or.inl trivial⟩⟩

/-- A chunk this call appended is in flight. -/
theorem appended_flight (h : View p f c₀ base c refs retired pts) {idx : Nat} {cur : ChunkRef}
    (hcur : refs[idx]? = some cur) (hidx : base.length ≤ idx) : cur.id ∈ c.flight := by
  have hat := h.content idx cur hcur
  unfold ViewAt at hat
  split at hat
  · have hlt := (List.getElem?_eq_some_iff.mp hat.1).1
    omega
  · rcases hat.2.1 with hin | ⟨-, hlt⟩
    · exact hin
    · omega

/-- Rewriting a touched chunk of the file. -/
theorem rewrite_runs (h : View p f c₀ base c refs retired pts) (hb : Base f c₀ base)
    (hg : Grants p c₀ base touched need) {idx : Nat} {cur : ChunkRef} {pt : Chunk}
    (hneed : refs.length + retired.length < need + base.length)
    (hcur : refs[idx]? = some cur) (ht : idx < base.length → touched idx) :
    Runs p.permit f c (Vfs.rewriteChunk f idx cur pt)
      (fun r c' => View p f c₀ base c' (refs.set idx r.1) (retired ++ r.2.toList)
        (Function.update pts idx (some pt)))
      (fun e _ => e ≠ .panic) := by
  have hflight := h.flight_length
  have hneed : c.flight.length < need := by omega
  obtain ⟨early, hearly, hmay⟩ := h.may_rewrite hb hg hneed hcur ht
  refine runs_mono (Vfs.rewriteChunk_runs (h.may_flush hb hg hneed hcur ht) hmay) ?_
    fun _ _ _ he => he
  rintro ⟨newRef, old⟩ c' hp hw
  have hidx : idx < base.length ∨ cur.id ∈ c.flight :=
    (Nat.lt_or_ge idx base.length).imp id (h.appended_flight hcur)
  refine h.rewrote hb hcur hidx hp hw (fun x hx hcalm hfloor => ?_) ?_
  · rcases hw.place with ⟨hnone, -⟩ | ⟨hsome, -, -, hold⟩
    · rw [hnone] at hx
      cases hx
    · rw [hcalm.floor] at hold
      rw [hsome] at hx
      injection hx with hx
      rw [← hx]
      exact h.copied hg hcur ht hold hfloor
  -- the mode after the rewrite
  rcases h.mode with ⟨hcalm, hbr⟩ | ⟨hflush, hsince⟩
  · have hrecycled : cur.generation < c.vfs.cowFloorGen ∧
        Recycled pendingFreeRecycleMin c c' → p.Mode c₀ c' := by
      rintro ⟨hold, hrec⟩
      rw [hcalm.floor] at hold
      have hbelow := fun hfloor => (⟨idx, cur, (h.below hcur ht hold hfloor).1,
        (h.below hcur ht hold hfloor).2, hold⟩ : ∃ idx r, touched idx ∧ base[idx]? = some r ∧
          r.generation < c₀.vfs.cowFloorGen)
      exact Or.inr ⟨(hg.recycle hbelow c (Path.frame h.path) hcalm hneed
        (h.copying hb hg hcur ht hcalm hold) hrec.recycles hrec.commits).1,
        hrec.since (Path.frame h.path) hcalm⟩
    rcases hw.onward with hcalm' | hrec
    · rcases hw.place with ⟨-, -, -, ⟨-, hsame⟩ | ⟨-, -, he | hrec⟩⟩ | ⟨-, -, hsame, -⟩
      · exact Or.inl ⟨hcalm.trans hcalm', by rw [hsame]; exact hbr⟩
      · rcases hearly he with he | ⟨hf, hsince⟩
        · exact Or.inl ⟨hcalm.trans hcalm', Or.inr he⟩
        · exact Or.inr ⟨hf, hsince.trans_calm hcalm'⟩
      · exact hrecycled hrec
      · exact Or.inl ⟨hcalm.trans hcalm', by rw [hsame]; exact hbr⟩
    · exact hrecycled hrec
  · refine Or.inr ⟨hflush, ?_⟩
    rcases hw.onward with hcalm' | ⟨-, hrec⟩
    · exact hsince.trans_calm hcalm'
    · exact absurd hrec.recycles hsince.not_recycles

/-- Rewriting a chunk this call appended, in its own slot. -/
theorem rewriteInPlace_runs (h : View p f c₀ base c refs retired pts) (hb : Base f c₀ base)
    {idx : Nat} {cur : ChunkRef} {pt : Chunk} (hcur : refs[idx]? = some cur)
    (hidx : base.length ≤ idx) :
    Runs p.permit f c (Vfs.rewriteInPlace f idx cur pt)
      (fun r c' => View p f c₀ base c' (refs.set idx r) retired
        (Function.update pts idx (some pt)))
      (fun e _ => e ≠ .panic) := by
  unfold Vfs.rewriteInPlace
  refine runs_bind (runs_mono Vfs.allocChunkGen_runs ?_ ?_)
  · rintro g c₁ hp₁ ⟨rfl, -, rfl⟩
    have hin : cur.id ∈ c.bumpGen.flight := h.appended_flight hcur hidx
    have hwrite := @Vfs.writeTarget_runs p.permit f c.bumpGen idx
      ⟨cur.id, c.vfs.tree.nextChunkGen⟩ pt c hin (fun _ _ => rfl) rfl
    refine runs_bind (runs_mono hwrite ?_ fun e _ _ he => he.1.1)
    rintro _ c₂ hp₂ ⟨hf, hbr, hcalm, hsl, hoth⟩
    refine runs_pure ?_
    have hcalm' : Calm c c₂ := Vfs.calm_bumpGen.trans hcalm
    have hw : Vfs.Rewrote False c f idx cur pt ⟨cur.id, c.vfs.tree.nextChunkGen⟩ none c₂ :=
      ⟨rfl, (Path.frame hp₂).nextChunkGen, hsl, hoth, Or.inl hcalm',
        Or.inl ⟨rfl, rfl, hf, Or.inl ⟨hin, hbr⟩⟩⟩
    have hview := h.rewrote hb hcur (Or.inr hin) (hp₁.trans hp₂) hw nofun ?_
    · rw [Option.toList_none, List.append_nil] at hview
      exact hview
    · rcases h.mode with ⟨hc, hbr₀⟩ | ⟨hflush, hsince⟩
      · exact Or.inl ⟨hc.trans hcalm', by rw [hbr]; exact hbr₀⟩
      · exact Or.inr ⟨hflush, hsince.trans_calm hcalm'⟩
  · rintro e c₁ - ⟨rfl, -⟩
    exact nofun

/-- A calm step keeps the mode. -/
theorem mode_calm (h : View p f c₀ base c refs retired pts) (hcalm : Calm c c')
    (hbr : c'.broken = c.broken) : p.Mode c₀ c' := by
  rcases h.mode with ⟨hc, hb⟩ | ⟨hflush, hsince⟩
  · exact Or.inl ⟨hc.trans hcalm, by rw [hbr]; exact hb⟩
  · exact Or.inr ⟨hflush, hsince.trans_calm hcalm⟩

/-- One chunk appended. -/
theorem append (h : View p f c₀ base c refs retired pts) (hb : Base f c₀ base)
    {r : ChunkRef} {pt : Chunk} (hp : Path p.permit f c c') (hflight : c'.flight = r.id :: c.flight)
    (hbroken : c'.broken = c.broken)
    (hslot : c'.vfs.container.slots r.id = c₀.vfs.sealedAs f refs.length r.generation pt)
    (hoth : ∀ x, Guarded c.vfs x → x ≠ r.id →
      c'.vfs.container.slots x = c.vfs.container.slots x)
    (hgen : c₀.vfs.tree.nextChunkGen ≤ r.generation ∧ r.generation < c'.vfs.tree.nextChunkGen)
    (hgrows : p.grows (refs.length + 1 - base.length))
    (hpend : c.vfs.pendingFree = [] → c'.vfs.pendingFree = []) (hmode : p.Mode c₀ c') :
    View p f c₀ base c' (refs ++ [r]) retired
      (Function.update pts refs.length (some pt)) where
  path := h.path.trans hp
  length := by
    have := h.length
    rw [List.length_append]
    omega
  count := by
    intro x
    have := h.count x
    rw [hflight, List.map_append, List.count_append]
    simp only [List.map_cons, List.map_nil, List.count_cons, List.count_nil]
    omega
  content := by
    intro idx r' hr'
    unfold ViewAt
    by_cases hidx : idx < refs.length
    · rw [List.getElem?_append_left hidx] at hr'
      have hat := h.content idx r' hr'
      -- the new slot was in no place, so it is not the slot of an older ref
      have hne : r'.id ≠ r.id := by
        intro heq
        have hled := ((h.ledger hb).path hp).once r.id
        have hbase := h.base_le_tally hb r.id
        have hcount := h.count r.id
        have hpos := List.count_pos_iff.mpr
          (List.mem_map_of_mem (f := ChunkRef.id) (List.mem_of_getElem? hr'))
        rw [heq] at hpos
        unfold Cfg.held at hled
        rw [refIds_tally, (Path.frame hp).dataIds, hflight, List.count_cons_self] at hled
        omega
      have heq := hoth r'.id (h.guarded hb (List.mem_of_getElem? hr')) hne
      rw [Function.update_of_ne (Nat.ne_of_lt hidx)]
      unfold ViewAt at hat
      split at hat
      · exact ⟨hat.1, heq.trans hat.2⟩
      · refine ⟨heq.trans hat.1, ?_, hat.2.2.1,
          hat.2.2.2.trans_le (Path.frame hp).nextChunkGen⟩
        rw [hflight, hbroken]
        exact hat.2.1.imp (List.mem_cons_of_mem _) id
    · rw [List.getElem?_append_right (Nat.not_lt.mp hidx)] at hr'
      obtain ⟨hlt, hget⟩ := List.getElem?_eq_some_iff.mp hr'
      rw [List.length_singleton] at hlt
      have hidx : idx = refs.length := by omega
      have hr : r' = r := by
        rw [← hget]
        simp
      rw [hidx, hr, Function.update_self]
      refine ⟨hslot, Or.inl ?_, hgen⟩
      rw [hflight]
      exact List.mem_cons_self
  mode := hmode
  grown := by
    rw [List.length_append, List.length_singleton]
    exact hgrows
  spent := fun hcalm => h.spent (h.calm_back hpend hcalm)

/-- The appended refs are in flight, each as often. -/
theorem appended_count {pre appended : List ChunkRef}
    (h : View p f c₀ base c (pre ++ appended) retired pts) (hb : Base f c₀ base)
    (hpre : base.length ≤ pre.length) (x : ChunkId) :
    (appended.map ChunkRef.id).count x ≤ c.flight.count x := by
  by_cases hx : x ∈ appended.map ChunkRef.id
  · obtain ⟨r, hr, rfl⟩ := List.mem_map.mp hx
    obtain ⟨k, hk⟩ := List.mem_iff_getElem?.mp hr
    have hcur : (pre ++ appended)[pre.length + k]? = some r := by
      rw [List.getElem?_append_right (Nat.le_add_right _ _), Nat.add_sub_cancel_left]
      exact hk
    have hin := List.count_pos_iff.mpr (h.appended_flight hcur (by omega))
    have honce := h.once hb r.id
    rw [List.map_append, List.count_append] at honce
    omega
  · rw [List.count_eq_zero.mpr hx]
    exact Nat.zero_le _

end View

/-- The plaintexts with zero chunks put in from `a` to `b`. -/
def zeroed (pts : Nat → Option Chunk) (a b : Nat) (i : Nat) : Option Chunk :=
  if a ≤ i ∧ i < b then some Chunk.zero else pts i

theorem zeroed_self {pts : Nat → Option Chunk} {a : Nat} : zeroed pts a a = pts := by
  funext i
  unfold zeroed
  rw [if_neg (by omega)]

theorem zeroed_succ {pts : Nat → Option Chunk} {a b : Nat} (h : a < b) :
    zeroed (Function.update pts a (some Chunk.zero)) (a + 1) b = zeroed pts a b := by
  funext i
  unfold zeroed
  by_cases hi : i = a
  · subst hi
    rw [if_neg (by omega), if_pos (by omega), Function.update_self]
  · rw [Function.update_of_ne hi]
    congr 1
    apply propext
    omega

/-- What the caller grants for appending: the slots in `broken` were overwritten
before, and a flush may still come. -/
def Extends (p : Plan) (c₀ : Cfg) (broken : List ChunkId) (need : Nat) : Prop :=
  ∀ c, Frame c₀.vfs c.vfs → Calm c₀ c → c.broken = broken → (broken = [] ∨ p.early) →
    c.flight.length < need → p.Spends c₀ (c.flight.length + 1) → Recycles 1 c.vfs → c.vfs.commits →
    p.flushes ∧ (broken = [] ∨ p.permit.midFlush)

namespace Vfs

variable {p : Plan} {f : FileId} {c₀ c c' : Cfg} {base pre appended : List ChunkRef}
  {retired : List ChunkId} {pts : Nat → Option Chunk} {touched : Nat → Prop} {need : Nat}

/-- Handing back what was appended ends the call. -/
theorem handBack_runs {ids : List ChunkId} {e : Failure} {Q : List ChunkRef → Cfg → Prop}
    {E : Failure → Cfg → Prop} (h : ∀ x, ids.count x ≤ c.flight.count x)
    (he : ∀ c', E e c') :
    Runs p.permit f c (do pushPending ids; throw e) Q E := by
  refine runs_bind (pushPending_runs (L := []) ?_ (runs_throw (he _)))
  intro x
  rw [List.count_nil]
  have := h x
  omega

theorem extendWithZeros_runs {missing : Nat}
    (h : View p f c₀ base c (pre ++ appended) retired pts) (hb : Base f c₀ base)
    (hpre : base.length ≤ pre.length) (hext : 0 < missing → Extends p c₀ c.broken need)
    (hneed : pre.length + appended.length + missing + retired.length ≤ need + base.length)
    (hgrows : ∀ n, n ≤ pre.length + appended.length + missing - base.length → p.grows n) :
    Runs p.permit f c (extendWithZeros f pre.length missing appended)
      (fun new c' => new.length = appended.length + missing ∧ c'.broken = c.broken ∧
        View p f c₀ base c' (pre ++ new) retired
          (zeroed pts (pre.length + appended.length) (pre.length + appended.length + missing)))
      (fun e _ => pre.length + appended.length + missing ≤ u64Max → e ≠ .panic) := by
  induction missing generalizing c appended pts with
  | zero =>
      refine runs_pure ⟨rfl, rfl, ?_⟩
      rw [Nat.add_zero, zeroed_self]
      exact h
  | succ missing ih =>
      unfold extendWithZeros
      have hlen := h.flight_length
      rw [List.length_append] at hlen
      have hroom : c.flight.length < need := by omega
      have hext := hext (Nat.succ_pos _)
      have hnext : p.grows ((pre ++ appended).length + 1 - base.length) :=
        hgrows _ (by rw [List.length_append]; omega)
      have hspends : Calm c₀ c → p.Spends c₀ (c.flight.length + 1) := fun hcalm =>
        ⟨_, retired, by rw [List.length_append]; omega, hnext,
          fun hfloor => ⟨h.retired_nodup hb, h.spent hcalm hfloor⟩⟩
      have hmid : Recycles 1 c.vfs → c.vfs.commits → c.broken = [] ∨ p.permit.midFlush := by
        intro hrec hcom
        rcases h.mode with ⟨hcalm, hbr⟩ | ⟨-, hsince⟩
        · exact (hext c (Path.frame h.path) hcalm rfl hbr hroom (hspends hcalm) hrec hcom).2
        · exact absurd hrec hsince.not_recycles
      refine runs_bind (runs_attempt (runs_mono (allocSlot_runs hmid) ?_ ?_))
      · rintro slot c₁ hp₁ htook
        -- the slot is there: seal a zero chunk into it
        have hin : slot ∈ c₁.bumpGen.flight := by
          show slot ∈ c₁.flight
          rw [htook.flight]
          exact List.mem_cons_self
        refine runs_bind (runs_mono allocChunkGen_runs ?_ ?_)
        · rintro g c₂ hp₂ ⟨rfl, -, rfl⟩
          refine runs_bind (runs_fromExcept ?_ ?_)
          · intro idx hidx
            have hidx : idx = (pre ++ appended).length := by
              unfold addU at hidx
              split at hidx
              · cases hidx
              · injection hidx with hidx
                rw [← hidx, List.length_append]
            subst hidx
            have hkept : SlotsKept c c₁.bumpGen := htook.kept
            have hframe := (Path.frame h.path).trans
              ((Path.frame hp₁).trans (Path.frame hp₂))
            have hkey : c₁.bumpGen.vfs.sealedAs f (pre ++ appended).length
                c₁.vfs.tree.nextChunkGen Chunk.zero =
                c.vfs.sealedAs f (pre ++ appended).length c₁.vfs.tree.nextChunkGen Chunk.zero := by
              unfold sealedAs
              rw [((Path.frame hp₁).trans (Path.frame hp₂)).fileKey]
            have hwrite := @writeTarget_runs p.permit f c₁.bumpGen (pre ++ appended).length
              ⟨slot, c₁.vfs.tree.nextChunkGen⟩ Chunk.zero c hin hkept hkey
            refine runs_bind (runs_attempt (runs_mono hwrite ?_ ?_))
            · rintro _ c₃ hp₃ ⟨hf, hbr, hcalm, hsl, hoth⟩
              have hbr₃ : c₃.broken = c.broken := hbr.trans htook.broken
              have hpath := (hp₁.trans hp₂).trans hp₃
              have hpend : c.vfs.pendingFree = [] → c₃.vfs.pendingFree = [] := by
                intro hnil
                rcases htook.onward with hcalm₁ | hrec
                · exact ((hcalm₁.trans calm_bumpGen).trans hcalm).pending.trans hnil
                · exact (calm_bumpGen.trans hcalm).pending.trans hrec.pending
              have hmode : p.Mode c₀ c₃ := by
                rcases htook.onward with hcalm₁ | hrec
                · exact h.mode_calm ((hcalm₁.trans calm_bumpGen).trans hcalm) hbr₃
                · rcases h.mode with ⟨hcalm₀, hbr₀⟩ | ⟨-, hsince⟩
                  · exact Or.inr ⟨(hext c (Path.frame h.path) hcalm₀ rfl hbr₀ hroom (hspends hcalm₀)
                      hrec.recycles hrec.commits).1, (hrec.since (Path.frame h.path) hcalm₀).trans_calm
                        (calm_bumpGen.trans hcalm)⟩
                  · exact absurd hrec.recycles hsince.not_recycles
              have hkey₀ : c.vfs.sealedAs f (pre ++ appended).length c₁.vfs.tree.nextChunkGen
                  Chunk.zero = c₀.vfs.sealedAs f (pre ++ appended).length
                  c₁.vfs.tree.nextChunkGen Chunk.zero := by
                unfold sealedAs
                rw [(Path.frame h.path).fileKey]
              have hview := h.append hb (r := ⟨slot, c₁.vfs.tree.nextChunkGen⟩) hpath
                (hf.trans htook.flight) hbr₃ (hsl.trans hkey₀) hoth
                ⟨((Path.frame h.path).trans (Path.frame hp₁)).nextChunkGen,
                  (Path.frame hp₃).nextChunkGen⟩ hnext hpend hmode
              rw [List.append_assoc] at hview
              have hlen₁ : (appended ++ [⟨slot, c₁.vfs.tree.nextChunkGen⟩] : List ChunkRef).length =
                  appended.length + 1 := by
                rw [List.length_append, List.length_singleton]
              refine runs_mono (ih hview (fun _ => by rw [hbr₃]; exact hext) (by rw [hlen₁]; omega)
                (fun n hn => hgrows n (by rw [hlen₁] at hn; omega))) ?_ ?_
              · rintro new c₄ - ⟨hnew, hbr₄, hv⟩
                rw [hlen₁] at hnew
                refine ⟨by omega, hbr₄.trans hbr₃, ?_⟩
                rw [hlen₁, List.length_append] at hv
                have hz := @zeroed_succ pts (pre.length + appended.length)
                  (pre.length + appended.length + (missing + 1)) (by omega)
                rw [← hz]
                have hidx : pre.length + (appended.length + 1) = pre.length + appended.length + 1 := by
                  omega
                have hstop : pre.length + appended.length + 1 + missing =
                    pre.length + appended.length + (missing + 1) := by omega
                rw [hidx, hstop] at hv
                exact hv
              · rintro e c₄ - he hfits
                refine he ?_
                rw [hlen₁]
                omega
            · rintro e c₃ - ⟨he, hf⟩
              refine runs_bind (pushPending_runs (L := c.flight) ?_ (handBack_runs
                (h.appended_count hb hpre) fun _ _ => he.1))
              intro x
              rw [hf]
              show c.flight.count x + [slot].count x ≤ c₁.flight.count x
              rw [htook.flight]
              simp only [List.count_cons, List.count_nil]
              omega
          · -- the index of the new chunk overflows
            intro e he hfits
            unfold addU at he
            split at he
            · omega
            · cases he
        · rintro e c₂ - ⟨rfl, -⟩ -
          exact nofun
      · rintro e c₁ - ⟨hnp, hle, -⟩
        refine handBack_runs (fun x => ?_) fun _ _ => hnp
        exact (h.appended_count hb hpre x).trans (hle x)

end Vfs

end Luksbox
