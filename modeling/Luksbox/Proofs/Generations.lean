import Luksbox.Model.Session
import Luksbox.Proofs.Walk

/-!
# The generation of a commit

Every flush that writes takes a generation for itself, so the metadata it
commits carries a counter above that of every commit before it, provided the
counter in memory is never behind a commit that returned. In a session it only
grows. Between sessions it is reloaded from the copy of the metadata that an
open finds, and so the copies are what has to be watched: as long as no copy an
open may find is older than a commit that returned, no counter is.

`Recorded` says this of the vault file and of the counter, for the commits that
returned and, where `w` asks for it, for the generation in the anchor.
-/

namespace Luksbox

open Lib

/-! ## What the copies of the metadata vouch for -/

/-- The generations of the commits that returned, newest first. -/
def Container.doneGenerations (c : Container) : List Nat :=
  (c.history.filter Commit.done).map fun commit => commit.blob.generation

/-- A generation that must not be lost: that of a commit that returned and, if
`w` holds, the one in the anchor. -/
def Container.Marked (w : Prop) (c : Container) (g : Nat) : Prop :=
  g ∈ c.doneGenerations ∨ (w ∧ c.anchor = some g)

/-- Every copy an open may find, now or after a crash. -/
def DataFile.regions (d : DataFile) : List Region := d.live :: d.mirror :: d.liveMaybe

structure Recorded (w : Prop) (c : Container) (d : DataFile) (next : Nat) : Prop where
  descending : c.doneGenerations.Pairwise (· > ·)
  next : ∀ g, c.Marked w g → g ≤ next
  kept : ∀ g, c.Marked w g → ∀ m, some m ∈ d.regions → g ≤ m.generation
  unmirrored : c.deniable = true → d.mirror = none

/-- The fields of a container that `Recorded` reads. -/
structure SameRecord (c c' : Container) : Prop where
  history : c'.history = c.history
  anchor : c'.anchor = c.anchor
  deniable : c'.deniable = c.deniable

theorem SameRecord.refl {c : Container} : SameRecord c c := ⟨rfl, rfl, rfl⟩

theorem SameRecord.trans {c c' c'' : Container} (h : SameRecord c c') (h' : SameRecord c' c'') :
    SameRecord c c'' :=
  ⟨h'.history.trans h.history, h'.anchor.trans h.anchor, h'.deniable.trans h.deniable⟩

theorem SameRecord.marked {w : Prop} {c c' : Container} {g : Nat} (h : SameRecord c c') :
    c'.Marked w g ↔ c.Marked w g := by
  unfold Container.Marked Container.doneGenerations
  rw [h.history, h.anchor]

theorem Recorded.mono {w : Prop} {c c' : Container} {d d' : DataFile} {n n' : Nat}
    (h : Recorded w c d n) (hc : SameRecord c c')
    (hd : ∀ m, some m ∈ d'.regions → some m ∈ d.regions)
    (hm : d'.mirror = d.mirror ∨ d'.mirror = none) (hn : n ≤ n') : Recorded w c' d' n' := by
  refine ⟨?_, fun g hg => (h.next g (hc.marked.mp hg)).trans hn,
    fun g hg m hin => h.kept g (hc.marked.mp hg) m (hd m hin), fun hden => ?_⟩
  · have := h.descending
    unfold Container.doneGenerations at this ⊢
    rwa [hc.history]
  · rcases hm with hm | hm
    · rw [hm]
      exact h.unmirrored (hc.deniable ▸ hden)
    · exact hm

namespace Vfs

variable {w : Prop} {s s' : Vfs}

/-- The next flush replaces the mirror, or there is none: the header says
LUKSBOX2, or the flush will make it say so. -/
def MirrorFollows (c : Container) : Prop :=
  (c.header.versionMajor = versionMajorV1 ∧ c.env.useV3ForFreshVault = true) ∨
    c.header.versionMajor ≥ versionMajorV2 ∨ c.mirror = none

structure InSession (w : Prop) (s : Vfs) : Prop where
  recorded : Recorded w s.container s.container.dataFile s.tree.nextChunkGen
  follows : MirrorFollows s.container

/-- Within a flush, after it has taken its generation and settled on a format. -/
structure Committing (w : Prop) (s : Vfs) : Prop where
  session : InSession w s
  ahead : ∀ g ∈ s.container.doneGenerations, g < s.tree.nextChunkGen
  mirrors : s.container.isV2Format = true ∨ s.container.mirror = none

theorem Quiet.sameRecord (h : Quiet s s') : SameRecord s.container s'.container := by
  rw [h.container]
  exact ⟨rfl, rfl, rfl⟩

theorem Quiet.mirror (h : Quiet s s') : s'.container.mirror = s.container.mirror := by
  rw [h.container]

theorem Quiet.regions (h : Quiet s s') :
    s'.container.dataFile.regions = s.container.dataFile.regions := by
  rw [h.container]
  rfl

theorem inSession_unhurt : Unhurt (InSession w) := by
  intro s s' h hs
  refine ⟨hs.recorded.mono (Quiet.sameRecord h) (fun m hm => Quiet.regions h ▸ hm)
    (.inl (Quiet.mirror h)) h.generation, ?_⟩
  have hf := hs.follows
  unfold MirrorFollows at hf ⊢
  rw [h.container]
  exact hf

theorem committing_unhurt : Unhurt (Committing w) := by
  intro s s' h hs
  refine ⟨inSession_unhurt s s' h hs.session, fun g hg => ?_, ?_⟩
  · refine lt_of_lt_of_le (hs.ahead g ?_) h.generation
    unfold Container.doneGenerations at hg ⊢
    rwa [(Quiet.sameRecord h).history] at hg
  · rw [h.container]
    exact hs.mirrors

end Vfs

/-! ## The commit -/

namespace Container

variable {c c' : Container} {m : Metadata}

/-- The fields of a container that no write of metadata changes. -/
structure KeepsRest (c c' : Container) : Prop where
  record : SameRecord c c'
  header : c'.header = c.header
  fresh : c'.env.useV3ForFreshVault = c.env.useV3ForFreshVault

theorem KeepsRest.refl : KeepsRest c c := ⟨SameRecord.refl, rfl, rfl⟩

theorem KeepsRest.trans {c'' : Container} (h : KeepsRest c c') (h' : KeepsRest c' c'') :
    KeepsRest c c'' :=
  ⟨h.record.trans h'.record, h'.header.trans h.header, h'.fresh.trans h.fresh⟩

/-- The copies are those there were, or the new metadata. -/
structure Landing (m : Metadata) (c c' : Container) : Prop where
  rest : KeepsRest c c'
  regions : ∀ m', some m' ∈ c'.dataFile.regions → some m' ∈ c.dataFile.regions ∨ m' = m
  mirror : c'.mirror = c.mirror ∨ (c.isV2Format = true ∧ c'.mirror = some m)

theorem Landing.refl : Landing m c c := ⟨KeepsRest.refl, fun _ h => .inl h, .inl rfl⟩

theorem Landing.isV2Format (h : Landing m c c') : c'.isV2Format = c.isV2Format := by
  unfold Container.isV2Format
  rw [h.rest.header, h.rest.record.deniable]

theorem Landing.trans {c'' : Container} (h : Landing m c c') (h' : Landing m c' c'') :
    Landing m c c'' := by
  refine ⟨h.rest.trans h'.rest, fun m' hm => ?_, ?_⟩
  · rcases h'.regions m' hm with hm | hm
    · exact h.regions m' hm
    · exact .inr hm
  · rcases h'.mirror with hm | ⟨hv, hm⟩
    · rw [hm]
      exact h.mirror
    · exact .inr ⟨h.isV2Format ▸ hv, hm⟩

theorem landing_withIo {io : List Fault} : Landing m c (c.withIo io) :=
  ⟨⟨⟨rfl, rfl, rfl⟩, rfl, rfl⟩, fun _ h => .inl h, .inl rfl⟩

theorem regions_synced {io : List Fault} {m' : Metadata}
    (hm : some m' ∈ (c.withIo io).synced.dataFile.regions) : some m' ∈ c.dataFile.regions := by
  have hm : some m' ∈ [c.live, c.mirror, c.live] := hm
  simp only [List.mem_cons, List.not_mem_nil, or_false] at hm
  show some m' ∈ c.live :: c.mirror :: c.liveMaybe
  rcases hm with hm | hm | hm
  · exact hm ▸ List.mem_cons_self
  · exact hm ▸ List.mem_cons_of_mem _ List.mem_cons_self
  · exact hm ▸ List.mem_cons_self

theorem landing_synced {io : List Fault} : Landing m c (c.withIo io).synced :=
  ⟨⟨⟨rfl, rfl, rfl⟩, rfl, rfl⟩, fun _ hm => .inl (regions_synced hm), .inl rfl⟩

theorem syncAll_landing :
    wp syncAll (fun _ c' => Landing m c c' ∧ c'.live = c.live ∧ c'.mirror = c.mirror ∧
      c'.liveMaybe = [c.live]) (fun _ c' => Landing m c c') c :=
  syncAll_spec (fun _ => ⟨landing_synced, rfl, rfl, rfl⟩) (fun _ => landing_withIo)
    fun _ => landing_synced

theorem landing_mirror {io : List Fault} (hv : c.isV2Format = true) :
    Landing m c { c.withIo io with mirror := some m } := by
  refine ⟨⟨⟨rfl, rfl, rfl⟩, rfl, rfl⟩, fun m' hm => ?_, .inr ⟨hv, rfl⟩⟩
  have hm : some m' ∈ c.live :: some m :: c.liveMaybe := hm
  rcases List.mem_cons.mp hm with hm | hm
  · exact .inl (List.mem_cons.mpr (.inl hm))
  rcases List.mem_cons.mp hm with hm | hm
  · injection hm with hm
    exact .inr hm
  · exact .inl (List.mem_cons_of_mem _ (List.mem_cons_of_mem _ hm))

theorem writeMetadataMirror_landing (hv : c.isV2Format = true) :
    wp (writeMetadataMirror m) (fun _ c' => Landing m c c' ∧ c'.mirror = some m)
      (fun _ c' => Landing m c c') c := by
  unfold writeMetadataMirror
  rw [wp_bind]
  refine nextFault_spec fun fault io => ?_
  cases fault with
  | ok => exact ⟨landing_mirror hv, rfl⟩
  | before => exact landing_withIo
  | torn left written => exact landing_withIo
  | after => exact landing_mirror hv

/-- The live region after a write of `r`. -/
theorem landing_live {io : List Fault} {r : Region} (hr : r = some m ∨ r = none) :
    Landing m c { c.withIo io with live := r, liveMaybe := r :: c.liveMaybe } := by
  refine ⟨⟨⟨rfl, rfl, rfl⟩, rfl, rfl⟩, fun m' hm => ?_, .inl rfl⟩
  have hm : some m' ∈ r :: c.mirror :: r :: c.liveMaybe := hm
  have hnew : some m' = r → m' = m := by
    intro h
    rcases hr with hr | hr
    · rw [hr] at h
      injection h
    · rw [hr] at h
      cases h
  rcases List.mem_cons.mp hm with hm | hm
  · exact .inr (hnew hm)
  rcases List.mem_cons.mp hm with hm | hm
  · exact .inl (List.mem_cons_of_mem _ (List.mem_cons.mpr (.inl hm)))
  rcases List.mem_cons.mp hm with hm | hm
  · exact .inr (hnew hm)
  · exact .inl (List.mem_cons_of_mem _ (List.mem_cons_of_mem _ hm))

theorem writeLive_landing :
    wp (writeLive m) (fun _ c' => Landing m c c' ∧ c'.live = some m ∧ c'.mirror = c.mirror)
      (fun _ c' => Landing m c c') c := by
  unfold writeLive
  rw [wp_bind]
  refine nextFault_spec fun fault io => ?_
  cases fault with
  | ok => exact ⟨landing_live (.inl rfl), rfl, rfl⟩
  | before => exact landing_withIo
  | torn left written => exact landing_live (.inr rfl)
  | after => exact landing_live (.inl rfl)

/-- What is in the file when the write of the live region has returned. -/
structure Landed (m : Metadata) (c c' : Container) : Prop where
  landing : Landing m c c'
  live : c'.live = some m
  liveMaybe : c'.liveMaybe = [some m]
  mirror : c'.mirror = c.mirror

theorem writeLive_settles :
    wp (do writeLive m; syncAll; ioCall) (fun _ c' => Landed m c c') (fun _ c' => Landing m c c')
      c := by
  rw [wp_bind]
  refine wp_mono writeLive_landing ?_ fun _ _ h => h
  rintro _ c₁ ⟨h₁, hlive₁, hmirror₁⟩
  rw [wp_bind]
  refine wp_mono (@syncAll_landing c₁ m) ?_ fun _ _ h => h₁.trans h
  rintro _ c₂ ⟨h₂, hlive₂, hmirror₂, hmaybe₂⟩
  have h₁₂ := h₁.trans h₂
  refine ioCall_spec (fun io => ⟨h₁₂.trans landing_withIo, ?_, ?_, ?_⟩)
    fun io => h₁₂.trans landing_withIo
  · show c₂.live = _
    rw [hlive₂, hlive₁]
  · show c₂.liveMaybe = _
    rw [hmaybe₂, hlive₁]
  · show c₂.mirror = _
    rw [hmirror₂, hmirror₁]

theorem writeMetadata_landing :
    wp (writeMetadata m)
      (fun _ c' => Landing m c c' ∧ c'.live = some m ∧ c'.liveMaybe = [some m] ∧
        c'.mirror = if c.isV2Format then some m else c.mirror)
      (fun _ c' => Landing m c c') c := by
  unfold writeMetadata
  rw [wp_bind, wp_get]
  split
  · exact Landing.refl
  split
  · next hv =>
      rw [wp_bind]
      refine wp_mono (writeMetadataMirror_landing hv) ?_ fun _ _ h => h
      rintro _ c₁ ⟨h₁, hmirror⟩
      refine wp_mono writeLive_settles ?_ fun _ _ h => h₁.trans h
      intro _ c₂ h₂
      refine ⟨h₁.trans h₂.landing, h₂.live, h₂.liveMaybe, ?_⟩
      rw [h₂.mirror, hmirror]
  · next hv =>
      refine wp_mono writeLive_settles ?_ fun _ _ h => h
      intro _ c₂ h₂
      exact ⟨h₂.landing, h₂.live, h₂.liveMaybe, h₂.mirror⟩

end Container

namespace Vfs

variable {w : Prop} {s s' : Vfs} {blob : Metadata}

/-! ## What is serialised -/

theorem spillToV3OnDisk_generation {I : Vfs → Prop} (hq : Unhurt I) (hs : I s) :
    wp spillToV3OnDisk (fun v3 s' => I s' ∧ v3.nextChunkGen = s'.tree.nextChunkGen)
      (fun _ s' => I s') s := by
  unfold spillToV3OnDisk
  rw [wp_bind, wp_get, wp_bind]
  refine wp_mono (spillInodes_keeps hq.unmoved (writeExternalChainFor_keeps hq) _ _ s hs) ?_ fun _ _ h => h
  intro onDisk s₁ h₁
  exact ⟨h₁, rfl⟩

theorem spillToV4OnDisk_generation {I : Vfs → Prop} (hq : Unhurt I) (hs : I s) :
    wp spillToV4OnDisk (fun v4 s' => I s' ∧ v4.nextChunkGen = s'.tree.nextChunkGen)
      (fun _ s' => I s') s := by
  unfold spillToV4OnDisk
  rw [wp_bind]
  refine wp_mono (spillToV3OnDisk_generation hq hs) ?_ fun _ _ h => h
  rintro v3 s₁ ⟨h₁, hgen⟩
  rw [wp_bind, wp_get, wp_ite]
  exact ⟨fun _ => h₁, fun _ => ⟨h₁, hgen⟩⟩

theorem wp_checkPayload {len : Nat} {Q : Unit → Vfs → Prop} {E : Failure → Vfs → Prop}
    (hok : Q () s) (herr : E (.err .metadataSerialize) s) : wp (checkPayload len) Q E s := by
  unfold checkPayload
  rw [wp_ite]
  exact ⟨fun _ => herr, fun _ => hok⟩

/-- The metadata of a flush carries the counter the flush leaves. -/
theorem encodeMetadata_generation {I : Vfs → Prop} (hq : Unhurt I) (hs : I s) :
    wp encodeMetadata (fun blob s' => I s' ∧ blob.generation = s'.tree.nextChunkGen)
      (fun _ s' => I s') s := by
  unfold encodeMetadata
  rw [wp_bind, wp_get]
  split
  · rw [wp_bind]
    refine wp_mono (spillToV4OnDisk_generation hq hs) ?_ fun _ _ h => h
    rintro v4 s₁ ⟨h₁, hgen⟩
    rw [wp_bind, wp_get, wp_bind]
    refine wp_checkPayload ?_ h₁
    refine ⟨h₁, ?_⟩
    split
    · exact hgen
    · exact hgen
  · rw [wp_bind]
    refine wp_mono (spillToV4OnDisk_generation hq hs) ?_ fun _ _ h => h
    rintro v4 s₁ ⟨h₁, hgen⟩
    rw [wp_bind, wp_get, wp_bind]
    exact wp_checkPayload ⟨h₁, hgen⟩ h₁
  · rw [wp_bind]
    refine wp_mono (spillToV3OnDisk_generation hq hs) ?_ fun _ _ h => h
    rintro v3 s₁ ⟨h₁, hgen⟩
    rw [wp_bind, wp_get, wp_bind]
    exact wp_checkPayload ⟨h₁, hgen⟩ h₁
  · rw [wp_bind]
    exact wp_checkPayload ⟨hs, rfl⟩ hs

/-! ## A flush -/

/-- A session whose container has seen part of a commit of `blob`. -/
theorem InSession.landing {c : Container} (h : InSession w s)
    (hgen : blob.generation = s.tree.nextChunkGen) (hc : Container.Landing blob s.container c) :
    InSession w { s with container := c } := by
  refine ⟨⟨?_, fun g hg => ?_, fun g hg m hm => ?_, fun hden => ?_⟩, ?_⟩
  · have := h.recorded.descending
    unfold Container.doneGenerations at this ⊢
    rwa [hc.rest.record.history]
  · exact h.recorded.next g (hc.rest.record.marked.mp hg)
  · have hg := hc.rest.record.marked.mp hg
    rcases hc.regions m hm with hm | rfl
    · exact h.recorded.kept g hg m hm
    · rw [hgen]
      exact h.recorded.next g hg
  · have hden : s.container.deniable = true := hc.rest.record.deniable ▸ hden
    rcases hc.mirror with hm | ⟨hv, -⟩
    · exact hm.trans (h.recorded.unmirrored hden)
    · unfold Container.isV2Format at hv
      rw [hden, Bool.not_true, Bool.and_false] at hv
      cases hv
  · have hf := h.follows
    unfold MirrorFollows at hf ⊢
    show (c.header.versionMajor = _ ∧ c.env.useV3ForFreshVault = true) ∨ c.header.versionMajor ≥ _ ∨
      c.mirror = none
    rw [hc.rest.header, hc.rest.fresh]
    rcases hf with hf | hf | hf
    · exact .inl hf
    · exact .inr (.inl hf)
    · rcases hc.mirror with hm | ⟨hv, -⟩
      · exact .inr (.inr (hm.trans hf))
      · refine .inr (.inl ?_)
        unfold Container.isV2Format at hv
        rw [Bool.and_eq_true, decide_eq_true_eq] at hv
        exact hv.1

theorem Committing.landing {c : Container} (h : Committing w s)
    (hgen : blob.generation = s.tree.nextChunkGen) (hc : Container.Landing blob s.container c) :
    Committing w { s with container := c } := by
  refine ⟨h.session.landing hgen hc, fun g hg => h.ahead g ?_, ?_⟩
  · unfold Container.doneGenerations at hg ⊢
    rwa [← hc.rest.record.history]
  · show c.isV2Format = true ∨ c.mirror = none
    rw [hc.isV2Format]
    rcases h.mirrors with hv | hv
    · exact .inl hv
    · rcases hc.mirror with hm | ⟨hv, -⟩
      · exact .inr (hm.trans hv)
      · exact .inl hv

theorem Committing.beginCommit (h : Committing w s) : Committing w (s.beginCommit blob) :=
  ⟨⟨⟨h.session.recorded.descending, h.session.recorded.next, h.session.recorded.kept,
    h.session.recorded.unmirrored⟩, h.session.follows⟩, h.ahead, h.mirrors⟩

/-- Every copy is the metadata just committed. -/
def Uniform (blob : Metadata) (s : Vfs) : Prop :=
  ∀ m, some m ∈ s.container.dataFile.regions → m = blob

/-- The commit has returned: its generation joins the others. -/
theorem Committing.done {older : List Commit} {commit : Commit} (h : Committing w s)
    (hgen : blob.generation = s.tree.nextChunkGen) (huniform : Uniform blob s)
    (hhist : s.container.history = commit :: older) (hblob : commit.blob = blob)
    (hpending : commit.done = false) : InSession w (endCommit s) ∧ Uniform blob (endCommit s) := by
  have hold : s.container.doneGenerations =
      (older.filter Commit.done).map fun commit => commit.blob.generation := by
    unfold Container.doneGenerations
    rw [hhist, List.filter_cons, hpending]
    rfl
  have hnew : (endCommit s).container.doneGenerations =
      blob.generation :: s.container.doneGenerations := by
    rw [hold]
    unfold endCommit Container.doneGenerations
    simp only [hhist]
    rw [List.filter_cons]
    simp only [↓reduceIte, List.map_cons, hblob]
  have hmarked : ∀ g, (endCommit s).container.Marked w g →
      g = blob.generation ∨ s.container.Marked w g := by
    intro g hg
    rcases hg with hg | hg
    · rw [hnew] at hg
      rcases List.mem_cons.mp hg with hg | hg
      · exact .inl hg
      · exact .inr (.inl hg)
    · exact .inr (.inr hg)
  refine ⟨⟨⟨?_, fun g hg => ?_, fun g hg m hm => ?_, h.session.recorded.unmirrored⟩,
    h.session.follows⟩, huniform⟩
  · rw [hnew, List.pairwise_cons]
    refine ⟨fun g hg => ?_, h.session.recorded.descending⟩
    rw [hgen]
    exact h.ahead g hg
  · rcases hmarked g hg with rfl | hg
    · exact le_of_eq hgen
    · exact h.session.recorded.next g hg
  · rcases hmarked g hg with rfl | hg
    · rw [huniform m hm]
    · exact h.session.recorded.kept g hg m hm

/-- The anchor may follow to a counter no copy is behind. -/
theorem InSession.anchored {c : Container} {g : Nat} (h : InSession w s)
    (hc : c = { s.container with
      anchor := some g, anchorHeader := c.anchorHeader, env := { s.container.env with io := c.env.io } })
    (hnext : g ≤ s.tree.nextChunkGen)
    (hkept : ∀ m, some m ∈ s.container.dataFile.regions → g ≤ m.generation) :
    InSession w { s with container := c } := by
  have hmarked : ∀ g', c.Marked w g' → g' = g ∨ s.container.Marked w g' := by
    intro g' hg
    rcases hg with hg | ⟨-, hg⟩
    · rw [hc] at hg
      exact .inr (.inl hg)
    · rw [hc] at hg
      injection hg with hg
      exact .inl hg.symm
  have hdata : c.dataFile = s.container.dataFile := by
    rw [hc]
    rfl
  refine ⟨⟨?_, fun g' hg => ?_, fun g' hg m hm => ?_, ?_⟩, ?_⟩
  · show c.doneGenerations.Pairwise _
    rw [hc]
    exact h.recorded.descending
  · rcases hmarked g' hg with rfl | hg
    · exact hnext
    · exact h.recorded.next g' hg
  · have hm : some m ∈ s.container.dataFile.regions := hdata ▸ hm
    rcases hmarked g' hg with rfl | hg
    · exact hkept m hm
    · exact h.recorded.kept g' hg m hm
  · show c.deniable = true → c.dataFile.mirror = none
    rw [hdata, hc]
    exact h.recorded.unmirrored
  · show MirrorFollows c
    rw [hc]
    exact h.follows

theorem writeAnchor_inSession {g : Nat} (h : InSession w s) (hnext : g ≤ s.tree.nextChunkGen)
    (hkept : ∀ m, some m ∈ s.container.dataFile.regions → g ≤ m.generation) :
    wp (onContainer (Container.writeAnchor g)) (fun _ s' => InSession w s')
      (fun _ s' => InSession w s') s := by
  rw [wp_onContainer]
  unfold Container.writeAnchor
  rw [wp_bind, wp_get]
  split
  · exact h
  · rw [wp_bind]
    have hio : ∀ io, InSession w { s with container := s.container.withIo io } :=
      fun io => inSession_unhurt s _ ⟨rfl, le_refl _⟩ h
    refine Container.ioCall_spec (fun io => ?_) hio
    rw [wp_modify]
    exact h.anchored rfl hnext hkept

theorem publishMetadata_inSession (h : Committing w s)
    (hgen : blob.generation = s.tree.nextChunkGen) :
    wp (publishMetadata blob) (fun _ s' => InSession w s') (fun _ s' => InSession w s') s := by
  unfold publishMetadata
  rw [wp_bind, wp_onContainer]
  refine wp_mono (@Container.syncAll_landing s.container blob) ?_
    fun _ c hc => h.session.landing hgen hc
  rintro _ c₁ ⟨hc₁, -⟩
  rw [wp_bind, wp_modify, wp_bind, wp_onContainer]
  have h₁ : Committing w (beginCommit blob { s with container := c₁ }) :=
    (h.landing hgen hc₁).beginCommit
  refine wp_mono Container.writeMetadata_landing ?_ fun _ c hc => h₁.session.landing hgen hc
  rintro _ c₂ ⟨hc₂, hlive, hmaybe, hmirror⟩
  have h₂ := h₁.landing hgen hc₂
  have huniform : Uniform blob { beginCommit blob { s with container := c₁ } with
      container := c₂ } := by
    intro m hm
    have hm : some m ∈ c₂.live :: c₂.mirror :: c₂.liveMaybe := hm
    rw [hlive, hmaybe] at hm
    rcases List.mem_cons.mp hm with hm | hm
    · injection hm
    rcases List.mem_cons.mp hm with hm | hm
    · rw [hmirror] at hm
      split at hm
      · injection hm
      · next hv =>
          rcases h₁.mirrors with hyes | hno
          · exact absurd hyes hv
          · rw [hno] at hm
            cases hm
    · rw [List.mem_singleton] at hm
      injection hm
  rw [wp_bind, wp_modify, wp_bind, wp_modify, wp_bind, wp_onContainer]
  obtain ⟨h₃, hu₃⟩ := h₂.done hgen huniform hc₂.rest.record.history rfl rfl
  have hgen₃ : blob.generation = (endCommit { beginCommit blob { s with container := c₁ } with
      container := c₂ }).tree.nextChunkGen := hgen
  generalize endCommit { beginCommit blob { s with container := c₁ } with container := c₂ } = s₃
    at h₃ hu₃ hgen₃
  -- what is left changes nothing that matters but the anchor
  let s₄ : Vfs := { releasePending s₃ with
    container := { s₃.container with metadataRecovered := false } }
  have h₄ : InSession w s₄ :=
    ⟨⟨h₃.recorded.descending, h₃.recorded.next, h₃.recorded.kept, h₃.recorded.unmirrored⟩,
      h₃.follows⟩
  show wp _ _ _ s₄
  rw [wp_bind, wp_get, wp_bind, wp_fromExcept]
  refine ⟨fun _ _ => ?_, fun _ _ => h₄⟩
  rw [wp_bind]
  refine wp_mono (writeAnchor_inSession h₄ (le_refl _) fun m hm => ?_) ?_ fun _ _ h => h
  · have heq : m = blob := hu₃ m hm
    rw [heq, hgen₃]
    exact le_refl _
  · intro _ s₅ h₅
    exact inSession_unhurt.unmoved s₅ _ (Silent.of_eq rfl rfl) h₅

theorem upgradeHeader_committing (h : InSession w s)
    (hahead : ∀ g ∈ s.container.doneGenerations, g < s.tree.nextChunkGen) :
    Committing w (upgradeHeader s) := by
  unfold upgradeHeader
  split
  · next hup =>
      obtain ⟨-, hden, -⟩ := hup
      refine ⟨⟨⟨h.recorded.descending, h.recorded.next, h.recorded.kept, h.recorded.unmirrored⟩,
        .inr (.inl (le_refl _))⟩, hahead, .inl ?_⟩
      show (decide (versionMajorV2 ≥ versionMajorV2) && !s.container.deniable) = true
      rw [hden]
      rfl
  · next hup =>
      refine ⟨h, hahead, ?_⟩
      by_cases hden : s.container.deniable = true
      · exact .inr (h.recorded.unmirrored hden)
      rw [Bool.not_eq_true] at hden
      rcases h.follows with ⟨hv, hfresh⟩ | hv | hm
      · exact absurd ⟨hv, hden, hfresh⟩ hup
      · left
        unfold Container.isV2Format
        rw [hden, Bool.not_false, Bool.and_true, decide_eq_true_eq]
        exact hv
      · exact .inr hm

theorem upgradeToV4_committing (h : Committing w s) : Committing w (upgradeToV4 s) := by
  unfold upgradeToV4
  split
  · exact committing_unhurt.unmoved s _ (Silent.of_eq rfl rfl) h
  · exact h

theorem commitMetadata_inSession : Keeps (InSession w) commitMetadata := by
  refine Keeps.bind (modify_keeps inSession_unhurt.unmoved fun _ => Silent.of_eq rfl rfl) fun _ => ?_
  refine Keeps.bind Keeps.get fun _ => Keeps.bind Keeps.fromExcept fun _ => ?_
  intro s h
  rw [wp_bind]
  unfold allocChunkGen
  rw [wp_alloc]
  refine ⟨fun n tree halloc => ?_, fun _ => h⟩
  -- the flush has a generation of its own from here on
  have htree : tree.nextChunkGen = s.tree.nextChunkGen + 1 := by
    unfold DirectoryTree.allocChunkGen at halloc
    split at halloc
    · cases halloc
    · injection halloc with halloc
      injection halloc with _ halloc
      rw [← halloc]
  have h₁ : InSession w { s with tree := tree } :=
    inSession_unhurt s _ ⟨rfl, by rw [htree]; exact Nat.le_succ _⟩ h
  have hahead : ∀ g ∈ s.container.doneGenerations, g < tree.nextChunkGen := by
    intro g hg
    rw [htree]
    exact Nat.lt_succ_of_le (h.recorded.next g (.inl hg))
  rw [wp_bind, wp_modify, wp_bind, wp_modify, wp_bind]
  have h₂ := upgradeToV4_committing (upgradeHeader_committing h₁ hahead)
  refine wp_mono (encodeMetadata_generation committing_unhurt h₂) ?_ fun _ _ h => h.session
  rintro blob s₃ ⟨h₃, hgen⟩
  exact publishMetadata_inSession h₃ hgen

theorem flush_inSession : Keeps (InSession w) flush := by
  refine Keeps.bind Keeps.get fun _ => Keeps.ite (Keeps.ite Keeps.throw Keeps.pure) ?_
  exact Keeps.ite Keeps.pure commitMetadata_inSession

/-! ## What a flush leaves in the anchor -/

/-- A commit that returned is the newest one, and an attached anchor is at its
generation. -/
def Anchored (attached : Bool) (g : Nat) (s : Vfs) : Prop :=
  s.container.doneGenerations.head? = some g ∧ (attached = true → s.container.anchor = some g)

theorem attached_unhurt {a : Option Nat} : Unhurt fun s => s.container.anchor = a := by
  intro s s' h hs
  rw [← hs]
  exact (Quiet.sameRecord h).anchor

theorem writeAnchor_anchored {g : Nat} (hdone : s.container.doneGenerations.head? = some g) :
    wp (onContainer (Container.writeAnchor g))
      (fun _ s' => Anchored s.container.anchor.isSome g s') (fun _ _ => True) s := by
  rw [wp_onContainer]
  unfold Container.writeAnchor
  rw [wp_bind, wp_get]
  split
  · next hnone =>
      refine ⟨hdone, fun h => ?_⟩
      rw [hnone] at h
      cases h
  · rw [wp_bind]
    refine Container.ioCall_spec (fun io => ?_) fun _ => trivial
    exact ⟨hdone, fun _ => rfl⟩

theorem publishMetadata_anchored (hgen : blob.generation = s.tree.nextChunkGen) :
    wp (publishMetadata blob)
      (fun _ s' => Anchored s.container.anchor.isSome blob.generation s') (fun _ _ => True) s := by
  unfold publishMetadata
  rw [wp_bind, wp_onContainer]
  refine wp_mono (@Container.syncAll_landing s.container blob) ?_ fun _ _ _ => trivial
  rintro _ c₁ ⟨hc₁, -⟩
  rw [wp_bind, wp_modify, wp_bind, wp_onContainer]
  refine wp_mono Container.writeMetadata_landing ?_ fun _ _ _ => trivial
  rintro _ c₂ ⟨hc₂, -⟩
  rw [wp_bind, wp_modify, wp_bind, wp_modify, wp_bind, wp_onContainer]
  have hanchor : c₂.anchor = s.container.anchor :=
    hc₂.rest.record.anchor.trans hc₁.rest.record.anchor
  let s₄ : Vfs := { releasePending (endCommit { beginCommit blob { s with container := c₁ } with
    container := c₂ }) with container := { (endCommit { beginCommit blob
      { s with container := c₁ } with container := c₂ }).container with metadataRecovered := false } }
  have hdone : s₄.container.doneGenerations.head? = some blob.generation := by
    have hhist : c₂.history = { tree := s.tree, blob := blob, slots := c₁.slots, done := false } ::
        c₁.history := hc₂.rest.record.history
    show (((endCommit { beginCommit blob { s with container := c₁ } with
      container := c₂ }).container.history.filter Commit.done).map _).head? = _
    unfold endCommit
    simp only [hhist]
    rw [List.filter_cons]
    rfl
  show wp _ _ _ s₄
  rw [wp_bind, wp_get, wp_bind, wp_fromExcept]
  refine ⟨fun _ _ => ?_, fun _ _ => trivial⟩
  have hnext : s₄.tree.nextChunkGen = blob.generation := hgen.symm
  have hatt : s₄.container.anchor = s.container.anchor := hanchor
  rw [wp_bind, hnext]
  refine wp_mono (writeAnchor_anchored hdone) ?_ fun _ _ h => h
  intro _ s₅ h₅
  rw [hatt] at h₅
  exact h₅

theorem flush_anchored :
    wp flush
      (fun _ s' => s' = s ∨ ∃ g, Anchored s.container.anchor.isSome g s') (fun _ _ => True) s := by
  unfold flush
  rw [wp_bind, wp_get]
  split
  · split
    · exact trivial
    · exact .inl rfl
  split
  · exact .inl rfl
  unfold commitMetadata
  rw [wp_bind, wp_modify, wp_bind, wp_get, wp_bind, wp_fromExcept]
  refine ⟨fun _ _ => ?_, fun _ _ => trivial⟩
  rw [wp_bind]
  unfold allocChunkGen
  rw [wp_alloc]
  refine ⟨fun n tree _ => ?_, fun _ => trivial⟩
  rw [wp_bind, wp_modify, wp_bind, wp_modify, wp_bind]
  have hanchor : (upgradeToV4 (upgradeHeader { s with
      cowFloorGen := s.tree.nextChunkGen, tree := tree })).container.anchor = s.container.anchor := by
    unfold upgradeToV4 upgradeHeader
    split
    · show (ite _ _ _ : Vfs).container.anchor = _
      split
      · rfl
      · rfl
    · split
      · rfl
      · rfl
  refine wp_mono (encodeMetadata_generation attached_unhurt hanchor) ?_ fun _ _ _ => trivial
  rintro blob s₃ ⟨h₃, hgen⟩
  refine wp_mono (publishMetadata_anchored hgen) ?_ fun _ _ h => h
  intro _ s₄ h₄
  rw [h₃] at h₄
  exact .inr ⟨_, h₄⟩

/-! ## The other calls -/

theorem truncateDataFile_inSession {len : Nat} :
    Keeps (InSession w) (onContainer (Container.truncateDataFile len)) := by
  refine Keeps.zoom fun s h => ?_
  have hq : ∀ c, SlotsOnly s.container c → InSession w { s with container := c } :=
    fun c hc => inSession_unhurt.unmoved s _ ⟨hc, le_refl _⟩ h
  have hsync : ∀ c, SlotsOnly s.container c → wp Container.syncAll
      (fun _ c' => InSession w { s with container := c' })
      (fun _ c' => InSession w { s with container := c' }) c := by
    intro c hc
    have hs : InSession w { s with container := c } := hq c hc
    have hland : ∀ c', Container.Landing .empty c c' → c'.mirror = c.mirror →
        (∀ m, some m ∈ c'.dataFile.regions → some m ∈ c.dataFile.regions) →
        InSession w { s with container := c' } := by
      intro c' hc' hm hr
      refine ⟨hs.recorded.mono hc'.rest.record hr (.inl hm) (le_refl _), ?_⟩
      have hf := hs.follows
      unfold MirrorFollows at hf ⊢
      show (c'.header.versionMajor = _ ∧ c'.env.useV3ForFreshVault = true) ∨
        c'.header.versionMajor ≥ _ ∨ c'.mirror = none
      rw [hc'.rest.header, hc'.rest.fresh, hm]
      exact hf
    have hsynced : ∀ io, InSession w { s with container := (c.withIo io).synced } :=
      fun io => hland _ Container.landing_synced rfl fun _ hm => Container.regions_synced hm
    exact Container.syncAll_spec hsynced
      (fun io => hland _ Container.landing_withIo rfl fun m hm => hm) hsynced
  unfold Container.truncateDataFile
  rw [wp_bind, wp_get]
  split
  · exact h
  rw [wp_bind]
  refine Container.nextFault_spec fun fault io => ?_
  cases fault with
  | ok => exact wp_bind.mpr (hsync _ rfl)
  | before => exact hq _ slotsOnly_withIo
  | torn left written => exact hq _ slotsOnly_withIo
  | after => exact hq _ rfl

end Vfs

/-! ## Opening -/

namespace Container

variable {c₀ c : Container}

/-- What an open may change: it reads, and it may note that it used the mirror. -/
def Opening (c₀ c : Container) : Prop := c = { c₀ with
  slots := c.slots
  slotsMaybe := c.slotsMaybe
  fileLen := c.fileLen
  metadataRecovered := c.metadataRecovered
  env := { c₀.env with io := c.env.io } }

theorem Opening.slots {c' : Container} (h : Opening c₀ c) (hs : Vfs.SlotsOnly c c') :
    Opening c₀ c' := by
  unfold Opening Vfs.SlotsOnly at *
  rw [hs, h]

theorem Opening.live (h : Opening c₀ c) : c.live = c₀.live := by
  rw [h]

theorem Opening.mirror (h : Opening c₀ c) : c.mirror = c₀.mirror := by
  rw [h]

theorem readChunk_opening {key : SubKey} {fileId idx : Nat} {chunk : ChunkRef} :
    Keeps (Opening c₀) (readChunk key fileId idx chunk) := fun _ h =>
  wp_mono Vfs.readChunk_slots (fun _ _ hs => h.slots hs) fun _ _ hs => h.slots hs

theorem walkChunkListLoop_opening {fileId maxEntries : Nat} (budget idx : Nat)
    (next : Option ChunkRef) (entries blocks : List ChunkRef) :
    Keeps (Opening c₀) (walkChunkListLoop fileId maxEntries budget idx next entries blocks) := by
  induction budget generalizing idx next entries blocks with
  | zero =>
      cases next with
      | none => exact Keeps.pure
      | some cref => exact Keeps.throw
  | succ budget ih =>
      cases next with
      | none => exact Keeps.pure
      | some cref =>
          refine Keeps.bind Keeps.get fun _ => Keeps.bind readChunk_opening fun _ => ?_
          refine Keeps.bind Keeps.fromExcept fun _ => Keeps.ite Keeps.throw ?_
          exact Keeps.ite Keeps.throw (ih _ _ _ _)

theorem loadChunks_opening {id : FileId} {kind : InodeKind} {chunks : List ChunkRef}
    {external : Option (ChunkRef × Nat)} :
    Keeps (Opening c₀) (loadChunks id kind chunks external) := by
  unfold loadChunks
  split
  · exact Keeps.pure
  · refine Keeps.ite Keeps.throw (Keeps.ite Keeps.throw (Keeps.attempt ?_))
    refine Keeps.ite Keeps.throw (Keeps.bind (walkChunkListLoop_opening _ _ _ _ _) fun _ => ?_)
    exact Keeps.ite Keeps.throw Keeps.pure

theorem v3InodesToInMemory_opening (ods : List (FileId × InodeV3OnDisk)) (inodes : Inodes) :
    Keeps (Opening c₀) (v3InodesToInMemory ods inodes) := by
  induction ods generalizing inodes with
  | nil => exact Keeps.pure
  | cons od rest ih =>
      refine Keeps.bind (Keeps.bind loadChunks_opening fun r => ?_) fun _ => ih _
      split
      · exact Keeps.throw
      · exact Keeps.pure

theorem v4InodesToInMemory_opening (ods : List (FileId × InodeV4OnDisk)) (inodes : Inodes)
    (tolerated : List FileId) : Keeps (Opening c₀) (v4InodesToInMemory ods inodes tolerated) := by
  induction ods generalizing inodes tolerated with
  | nil => exact Keeps.pure
  | cons od rest ih =>
      refine Keeps.bind (Keeps.bind Keeps.get fun _ => ?_) fun _ => ih _ _
      refine Keeps.ite Keeps.throw (Keeps.ite Keeps.throw (Keeps.bind loadChunks_opening fun r => ?_))
      split
      · exact Keeps.pure
      · exact Keeps.ite Keeps.pure Keeps.throw

theorem v3OnDiskToInMemory_generation {v3 : DirectoryTreeV3OnDisk} (h : Opening c₀ c) :
    wp (v3OnDiskToInMemory v3)
      (fun decoded c' => Opening c₀ c' ∧ decoded.tree.nextChunkGen = v3.nextChunkGen)
      (fun _ _ => True) c := by
  unfold v3OnDiskToInMemory
  rw [wp_bind]
  exact wp_mono (v3InodesToInMemory_opening _ _ c h) (fun _ _ h' => ⟨h', rfl⟩) fun _ _ _ => trivial

theorem v4OnDiskToInMemory_generation {v4 : DirectoryTreeV4OnDisk} (h : Opening c₀ c) :
    wp (v4OnDiskToInMemory v4)
      (fun decoded c' => Opening c₀ c' ∧ decoded.tree.nextChunkGen = v4.nextChunkGen)
      (fun _ _ => True) c := by
  unfold v4OnDiskToInMemory
  rw [wp_bind]
  exact wp_mono (v4InodesToInMemory_opening _ _ _ c h) (fun _ _ h' => ⟨h', rfl⟩) fun _ _ _ => trivial

theorem decodeMetadata_generation {blob : Metadata} (h : Opening c₀ c) :
    wp (decodeMetadata blob)
      (fun r c' => Opening c₀ c' ∧ r.1.tree.nextChunkGen = blob.generation)
      (fun _ _ => True) c := by
  unfold decodeMetadata
  rw [wp_bind, wp_get]
  split
  · exact trivial
  cases blob with
  | empty => exact ⟨h, rfl⟩
  | lbm2 tree => exact ⟨h, rfl⟩
  | lbm3 v3 => exact wp_bind.mpr (wp_mono (v3OnDiskToInMemory_generation h) (fun _ _ h => h) fun _ _ h => h)
  | lbm4 v4 => exact wp_bind.mpr (wp_mono (v4OnDiskToInMemory_generation h) (fun _ _ h => h) fun _ _ h => h)
  | lbm5 v4 => exact wp_bind.mpr (wp_mono (v4OnDiskToInMemory_generation h) (fun _ _ h => h) fun _ _ h => h)
  | lbm6 v4 settings =>
      exact wp_bind.mpr (wp_mono (v4OnDiskToInMemory_generation h) (fun _ _ h => h) fun _ _ h => h)
  | unknown len => exact trivial

theorem readMetadata_opening :
    wp readMetadata (fun m c' => Opening c c' ∧ (c.live = some m ∨ (c.live = none ∧ c.mirror = some m)))
      (fun _ _ => True) c := by
  unfold readMetadata
  rw [wp_bind]
  refine ioCall_spec (fun io => ?_) fun _ => trivial
  rw [wp_bind, wp_get]
  split
  · next m hlive => exact ⟨rfl, .inl hlive⟩
  · next hlive =>
      split
      · exact trivial
      · next m hmirror =>
          rw [wp_bind, wp_attempt]
          exact ioCall_spec (fun _ => ⟨rfl, .inr ⟨hlive, hmirror⟩⟩) fun _ => trivial

/-- The counter comes from the copy of the metadata that was read. -/
theorem loadTree_generation :
    wp loadTree
      (fun r c' => Opening c c' ∧ ∃ m, (c.live = some m ∨ (c.live = none ∧ c.mirror = some m)) ∧
        r.1.tree.nextChunkGen = m.generation)
      (fun _ _ => True) c := by
  unfold loadTree
  rw [wp_bind]
  refine wp_mono readMetadata_opening ?_ fun _ _ h => h
  rintro m c₁ ⟨h₁, hm⟩
  rw [wp_bind]
  refine wp_mono (decodeMetadata_generation h₁) ?_ fun _ _ h => h
  rintro ⟨decoded, format, size⟩ c₂ ⟨h₂, hgen⟩
  rw [wp_bind, wp_get, wp_bind]
  cases validateMetadataTree decoded.tree c₂.header.dataOffset c₂.header.hideSizeHeader with
  | error e => exact trivial
  | ok _ => exact ⟨h₂, m, hm, hgen⟩

end Container

namespace Vfs

variable {w : Prop} {s : Vfs} {c : Container}

theorem open_generation (h : Vfs.open c = .ok s) :
    Container.Opening c s.container ∧
      ∃ m, (c.live = some m ∨ (c.live = none ∧ c.mirror = some m)) ∧
        s.tree.nextChunkGen = m.generation := by
  unfold Vfs.open at h
  cases hload : Container.loadTree c with
  | error e c' =>
      rw [hload] at h
      cases h
  | ok r c' =>
      obtain ⟨decoded, format, size⟩ := r
      rw [hload] at h
      injection h with h
      have hspec := wp_ok Container.loadTree_generation hload
      rw [← h]
      exact hspec

theorem regions_of_read {m : Metadata} (h : c.live = some m ∨ (c.live = none ∧ c.mirror = some m)) :
    some m ∈ c.dataFile.regions := by
  rcases h with h | ⟨-, h⟩
  · exact h ▸ List.mem_cons_self
  · exact h ▸ List.mem_cons_of_mem _ List.mem_cons_self

/-- A session opened on copies that vouch for the record vouches for it. -/
theorem open_recorded {n : Nat} (hc : Recorded w c c.dataFile n) (h : Vfs.open c = .ok s) :
    Recorded w s.container s.container.dataFile s.tree.nextChunkGen := by
  obtain ⟨hopen, m, hm, hgen⟩ := open_generation h
  have hrec : SameRecord c s.container := by
    rw [hopen]
    exact ⟨rfl, rfl, rfl⟩
  have hregions : s.container.dataFile.regions = c.dataFile.regions := by
    rw [hopen]
    rfl
  refine ⟨?_, fun g hg => ?_, fun g hg m' hm' => ?_, fun hden => ?_⟩
  · have := hc.descending
    unfold Container.doneGenerations at this ⊢
    rwa [hrec.history]
  · rw [hgen]
    exact hc.kept g (hrec.marked.mp hg) m (regions_of_read hm)
  · exact hc.kept g (hrec.marked.mp hg) m' (hregions ▸ hm')
  · show s.container.mirror = none
    rw [hopen.mirror]
    exact hc.unmirrored (hrec.deniable ▸ hden)

theorem reopen_inSession : Keeps (InSession w) reopen := by
  refine Keeps.bind flush_inSession fun _ => Keeps.get_bind fun s h => ?_
  rw [wp_bind, wp_fromExcept]
  refine ⟨fun s' hopen => ?_, fun _ _ => h⟩
  have hrec : Recorded w { s.container with metadataRecovered := false } s.container.dataFile
      s.tree.nextChunkGen := h.recorded.mono ⟨rfl, rfl, rfl⟩ (fun _ hm => hm) (.inl rfl) (le_refl _)
  refine ⟨open_recorded hrec hopen, ?_⟩
  have hf := h.follows
  unfold MirrorFollows at hf ⊢
  rw [(open_generation hopen).1]
  exact hf

theorem step_inSession {call : Call} (h : InSession w (s.withEnv call.env)) :
    InSession w (s.step call) := by
  have hk : Keeps (InSession w) (exec call.op) :=
    exec_keeps inSession_unhurt.unmoved (writes_of_unhurt inSession_unhurt flush_inSession)
      (fun _ => truncateDataFile_inSession) call.op fun _ => reopen_inSession
  exact step_of_wp (hk _ h)

end Vfs

end Luksbox
