import Luksbox.Model.Header
import Luksbox.Proofs.TornDeniable

/-!
# What header writes put on the storage

The stamp of a header is what it says about itself: the key it is sealed under,
its generation, and the keyslot table it vouches for. A torn write leaves the
stamp it went over, the new one, or none. The lemmas here say which stamps a
sequence of header writes can have stored when it stops, in three strengths:
whatever happens, when every call succeeds, and when the first write fails
without its stamp having landed.
-/

namespace Luksbox

open Lib

/-! ## Stamps -/

abbrev HeaderTable := KeyTable ⊕ SlotTable

structure HeaderStamp where
  mvk : Nat
  generation : Nat
  table : HeaderTable

/-- What a v3 header says about itself. -/
def HeaderBytes.stamp : HeaderBytes → Option HeaderStamp
  | .standard image =>
      if image.versionMajor ≥ versionMajorHeaderV3 then
        some ⟨image.mvk, image.generation, .inl image.keyslots⟩
      else none
  | .deniable header =>
      match header.inner with
      | .box b => b.v3.map fun v => ⟨b.mvk, v.headerGeneration, .inr v.slotTableDigest⟩
      | .torn => none
  | .unparsable => none
  | .unauthentic => none

/-- A standard header is whole if it is authentic; a deniable one whose inner
header came from another write than its slots is not. -/
def HeaderBytes.whole : HeaderBytes → Prop
  | .deniable header => ∀ b, header.inner = .box b → ∀ v, b.v3 = some v →
      v.slotTableDigest = header.slots
  | _ => True

theorem stamp_of_inner_eq {a b : DeniableHeader} (h : a.inner = b.inner) :
    (HeaderBytes.deniable a).stamp = (HeaderBytes.deniable b).stamp := by
  unfold HeaderBytes.stamp
  simp only
  rw [h]

theorem tornBytes_stamp {applied : Nat → Bool} {parses : Bool} {old : Option HeaderBytes}
    {new : HeaderBytes} {m : HeaderStamp}
    (h : (Head.tornBytes applied parses old new).stamp = some m) :
    (∃ o, old = some o ∧ o.stamp = some m) ∨ new.stamp = some m := by
  unfold Head.tornBytes at h
  split at h
  · next o n =>
      rcases torn_inner_cases applied o n with heq | heq | heq
      · exact .inl ⟨_, rfl, (stamp_of_inner_eq heq).symm.trans h⟩
      · exact .inr ((stamp_of_inner_eq heq).symm.trans h)
      · unfold HeaderBytes.stamp at h
        simp only at h
        rw [heq] at h
        cases h
  · split at h <;> cases h

namespace Head

variable {h h' h₁ : Head}

/-- A header with this stamp has been stored at some time. -/
def Holds (h : Head) (m : HeaderStamp) : Prop := ∃ b ∈ h.stored, b.stamp = some m

/-- Every stamp on the storage is on record. -/
def Recorded (h : Head) : Prop :=
  ∀ p b, h.files p = some b ∨ h.mirrors p = some b → ∀ m, b.stamp = some m → h.Holds m

/-! ## Writing -/

/-- Writes that stored at most the stamps in `new` and changed nothing but the
storage. -/
structure Wrote (new : HeaderStamp → Prop) (h h' : Head) : Prop where
  same : h' = { h with
    files := h'.files, mirrors := h'.mirrors, io := h'.io, stored := h'.stored }
  stamps : ∀ m, h'.Holds m → new m ∨ h.Holds m
  recorded : h.Recorded → h'.Recorded

namespace Wrote

variable {new : HeaderStamp → Prop}

theorem faults (io : List HeaderFault) : Wrote new h { h with io := io } :=
  ⟨rfl, fun _ hm => .inr hm, fun hr => hr⟩

theorem refl : Wrote new h h := faults h.io

theorem trans (hw : Wrote new h h₁) (hw' : Wrote new h₁ h') : Wrote new h h' where
  same := by
    have h1 := hw'.same
    rw [hw.same] at h1
    exact h1
  stamps := by
    intro m hm
    rcases hw'.stamps m hm with hn | hm
    · exact .inl hn
    · exact hw.stamps m hm
  recorded := fun hr => hw'.recorded (hw.recorded hr)

theorem weaken {new' : HeaderStamp → Prop} (hw : Wrote new h h') (hsub : ∀ m, new m → new' m) :
    Wrote new' h h' :=
  ⟨hw.same, fun m hm => (hw.stamps m hm).imp_left (hsub m), hw.recorded⟩

theorem mvk (hw : Wrote new h h') : h'.mvk = h.mvk := by rw [hw.same]

theorem rotation (hw : Wrote new h h') : h'.rotation = h.rotation := by rw [hw.same]

theorem deniable (hw : Wrote new h h') : h'.deniable = h.deniable := by rw [hw.same]

theorem generation (hw : Wrote new h h') : h'.generation? = h.generation? := by
  rw [hw.same]
  rfl

end Wrote

theorem holds_cons {bytes : HeaderBytes} {m : HeaderStamp}
    (hs : h'.stored = bytes :: h.stored) (hm : h'.Holds m) : bytes.stamp = some m ∨ h.Holds m := by
  obtain ⟨b, hb, hbm⟩ := hm
  rw [hs] at hb
  rcases List.mem_cons.1 hb with rfl | hb
  · exact .inl hbm
  · exact .inr ⟨b, hb, hbm⟩

theorem holds_of_cons {bytes : HeaderBytes} {m : HeaderStamp}
    (hs : h'.stored = bytes :: h.stored) (hm : h.Holds m) : h'.Holds m := by
  obtain ⟨b, hb, hbm⟩ := hm
  exact ⟨b, hs ▸ List.mem_cons_of_mem _ hb, hbm⟩

theorem holds_head {bytes : HeaderBytes} {m : HeaderStamp}
    (hs : h'.stored = bytes :: h.stored) (hm : bytes.stamp = some m) : h'.Holds m :=
  ⟨bytes, hs ▸ List.mem_cons_self, hm⟩

theorem update_some {f : Place → Option HeaderBytes} {p q : Place} {bytes b : HeaderBytes}
    (h : Function.update f p (some bytes) q = some b) : b = bytes ∨ f q = some b := by
  by_cases hq : q = p
  · subst hq
    rw [Function.update_self] at h
    injection h with h
    exact .inl h.symm
  · rw [Function.update_of_ne hq] at h
    exact .inr h

variable {new : HeaderStamp → Prop}

theorem wrote_storeHeader {bytes : HeaderBytes}
    (hn : ∀ m, bytes.stamp = some m → new m ∨ h.Holds m) : Wrote new h (h.storeHeader bytes) where
  same := rfl
  stamps := by
    intro m hm
    rcases holds_cons rfl hm with hb | hm
    · exact hn m hb
    · exact .inr hm
  recorded := by
    intro hr p b hb m hm
    rcases hb with hb | hb
    · rcases update_some hb with rfl | hb
      · exact holds_head rfl hm
      · exact holds_of_cons rfl (hr p b (.inl hb) m hm)
    · exact holds_of_cons rfl (hr p b (.inr hb) m hm)

theorem wrote_storeMirror {bytes : HeaderBytes}
    (hn : ∀ m, bytes.stamp = some m → new m ∨ h.Holds m) : Wrote new h (h.storeMirror bytes) where
  same := rfl
  stamps := by
    intro m hm
    rcases holds_cons rfl hm with hb | hm
    · exact hn m hb
    · exact .inr hm
  recorded := by
    intro hr p b hb m hm
    rcases hb with hb | hb
    · exact holds_of_cons rfl (hr p b (.inl hb) m hm)
    · rcases update_some hb with rfl | hb
      · exact holds_head rfl hm
      · exact holds_of_cons rfl (hr p b (.inr hb) m hm)

theorem wrote_torn {bytes : HeaderBytes} {applied : Nat → Bool} {parses : Bool} (hr : h.Recorded)
    (hn : ∀ m, (tornBytes applied parses (h.files h.handle) bytes).stamp = some m →
      bytes.stamp = some m → new m) :
    Wrote new h (h.storeHeader (tornBytes applied parses (h.files h.handle) bytes)) := by
  apply wrote_storeHeader
  intro m hm
  rcases tornBytes_stamp hm with ⟨o, ho, hom⟩ | hb
  · exact .inr (hr h.handle o (.inl ho) m hom)
  · exact .inl (hn m hm hb)

/-- Wherever the program stops, it has stored at most the stamps in `new`. -/
abbrev Writing {α : Type} (new : HeaderStamp → Prop) (m : HeadM α) (h₀ h : Head) : Prop :=
  wp m (fun _ h' => Wrote new h₀ h') (fun _ h' => Wrote new h₀ h') h

theorem wp_fault {Q : HeaderFault → Head → Prop} {E : Failure → Head → Prop}
    (hq : Q (h.io.headD .ok) { h with io := h.io.tail }) : wp nextFault Q E h := by
  unfold nextFault wp
  simp only
  cases hio : h.io with
  | nil =>
      rw [hio] at hq
      have : h = { h with io := [] } := by rw [← hio]
      rw [this]
      exact hq
  | cons f rest =>
      rw [hio] at hq
      exact hq

theorem ioStep_writing {h₀ : Head} (hw : Wrote new h₀ h) : Writing new ioStep h₀ h := by
  unfold ioStep
  rw [Writing, wp_bind]
  apply wp_fault
  have hw' := hw.trans (Wrote.faults h.io.tail)
  split <;> exact hw'

theorem writeLiveHeader_writing {bytes : HeaderBytes} {h₀ : Head} (hr : h.Recorded)
    (hw : Wrote (fun m => bytes.stamp = some m) h₀ h) :
    Writing (fun m => bytes.stamp = some m) (writeLiveHeader bytes) h₀ h := by
  unfold writeLiveHeader
  rw [Writing, wp_bind]
  apply wp_fault
  have hw' := hw.trans (Wrote.faults h.io.tail)
  have hr' : Recorded { h with io := h.io.tail } := hr
  split
  · exact hw'.trans (wrote_storeHeader fun _ hm => .inl hm)
  · exact hw'
  · exact hw'.trans (wrote_torn hr' fun _ _ hm => hm)
  · exact hw'.trans (wrote_storeHeader fun _ hm => .inl hm)

theorem writeHeaderMirror_writing {bytes : HeaderBytes} {h₀ : Head}
    (hw : Wrote (fun m => bytes.stamp = some m) h₀ h) :
    Writing (fun m => bytes.stamp = some m) (writeHeaderMirror bytes) h₀ h := by
  unfold writeHeaderMirror
  rw [Writing, wp_bind]
  apply wp_fault
  have hw' := hw.trans (Wrote.faults h.io.tail)
  split
  · exact hw'.trans (wrote_storeMirror fun _ hm => .inl hm)
  · exact hw'.trans (wrote_storeMirror fun _ hm => .inl hm)
  · exact hw'

theorem writeStandardHeader_writing (hr : h.Recorded) :
    Writing (fun m => (HeaderBytes.standard h.image).stamp = some m) writeStandardHeader h h := by
  unfold writeStandardHeader
  rw [Writing, wp_bind, wp_get]
  have hlive : ∀ h', Wrote (fun m => (HeaderBytes.standard h.image).stamp = some m) h h' →
      Writing (fun m => (HeaderBytes.standard h.image).stamp = some m) (do
        writeLiveHeader (.standard h.image); ioStep; ioStep) h h' := by
    intro h' hw
    rw [Writing, wp_bind]
    refine wp_mono (writeLiveHeader_writing (hw.recorded hr) hw) ?_ fun _ _ hw => hw
    intro _ h₁ hw₁
    rw [wp_bind]
    exact wp_mono (ioStep_writing hw₁) (fun _ _ hw₂ => ioStep_writing hw₂) fun _ _ hw => hw
  split
  · rw [wp_bind]
    exact wp_mono (writeHeaderMirror_writing Wrote.refl) (fun _ h' hw => hlive h' hw)
      fun _ _ hw => hw
  · exact hlive h Wrote.refl

/-! ## Writes that all succeed, and writes that fail at once -/

/-- The next `n` writes and syncs succeed. -/
def OkFor (n : Nat) (h : Head) : Prop := ∀ f ∈ h.io.take n, f = .ok

theorem OkFor.head {n : Nat} (hok : OkFor (n + 1) h) : h.io.headD .ok = .ok := by
  unfold OkFor at hok
  cases hio : h.io with
  | nil => rfl
  | cons f rest =>
      rw [hio] at hok
      exact hok f List.mem_cons_self

theorem OkFor.tail {n : Nat} (hok : OkFor (n + 1) h) : OkFor n { h with io := h.io.tail } := by
  unfold OkFor at hok ⊢
  cases hio : h.io with
  | nil => exact fun _ hf => by simp at hf
  | cons f rest =>
      rw [hio] at hok
      exact fun g hg => hok g (List.mem_cons_of_mem _ hg)

theorem ioStep_ok {n : Nat} (hok : OkFor (n + 1) h) :
    wp ioStep (fun _ h' => OkFor n h') (fun _ _ => False) h := by
  unfold ioStep
  rw [wp_bind]
  apply wp_fault
  rw [hok.head]
  exact hok.tail

theorem writeLiveHeader_ok {n : Nat} {bytes : HeaderBytes} (hok : OkFor (n + 1) h) :
    wp (writeLiveHeader bytes) (fun _ h' => OkFor n h') (fun _ _ => False) h := by
  unfold writeLiveHeader
  rw [wp_bind]
  apply wp_fault
  rw [hok.head]
  exact hok.tail

theorem writeHeaderMirror_ok {n : Nat} {bytes : HeaderBytes} (hok : OkFor (n + 1) h) :
    wp (writeHeaderMirror bytes) (fun _ h' => OkFor n h') (fun _ _ => False) h := by
  unfold writeHeaderMirror
  rw [wp_bind]
  apply wp_fault
  rw [hok.head]
  exact hok.tail

/-- The writes and syncs of `write_standard_header`. -/
def standardWrites (h : Head) : Nat := if h.isV2Format then 4 else 3

theorem writeStandardHeader_ok (hok : OkFor h.standardWrites h) :
    wp writeStandardHeader (fun _ _ => True) (fun _ _ => False) h := by
  unfold writeStandardHeader
  rw [wp_bind, wp_get]
  have hlive : ∀ h', OkFor 3 h' → wp (do
      writeLiveHeader (.standard h.image); ioStep; ioStep) (fun _ _ => True) (fun _ _ => False)
      h' := by
    intro h' hok'
    rw [wp_bind]
    refine wp_mono (writeLiveHeader_ok hok') ?_ fun _ _ hf => hf
    intro _ h₁ hok₁
    rw [wp_bind]
    refine wp_mono (ioStep_ok hok₁) ?_ fun _ _ hf => hf
    intro _ h₂ hok₂
    exact wp_mono (ioStep_ok hok₂) (fun _ _ _ => trivial) fun _ _ hf => hf
  unfold standardWrites at hok
  split
  · next hv2 =>
      rw [if_pos hv2] at hok
      rw [wp_bind]
      exact wp_mono (writeHeaderMirror_ok hok) (fun _ h' hok' => hlive h' hok') fun _ _ hf => hf
  · next hv2 =>
      rw [if_neg hv2] at hok
      exact hlive h hok

/-- A write over `old` that ends like this leaves the stamp of `new`. -/
def lands (f : HeaderFault) (old : Option HeaderBytes)
    (new : HeaderBytes) : Prop :=
  ∃ m, new.stamp = some m ∧
    match f with
    | .ok => True
    | .after => True
    | .before => False
    | .torn applied parses => (tornBytes applied parses old new).stamp = some m

theorem writeLiveHeader_undone {bytes : HeaderBytes} {m : HeaderStamp} (hr : h.Recorded)
    (hm : bytes.stamp = some m) (hn : ¬ lands (h.io.headD .ok) (h.files h.handle) bytes) :
    wp (writeLiveHeader bytes) (fun _ _ => False) (fun _ h' => Wrote (fun _ => False) h h') h := by
  unfold writeLiveHeader
  rw [wp_bind]
  apply wp_fault
  have hw : Wrote (fun _ => False) h { h with io := h.io.tail } := Wrote.faults _
  have hr' : Recorded { h with io := h.io.tail } := hr
  split
  · next hf => exact hn ⟨m, hm, by rw [hf]; trivial⟩
  · exact hw
  · next applied parses hf =>
      refine hw.trans (wrote_torn hr' fun m' hm' hb => hn ?_)
      exact ⟨m', hb, by rw [hf]; exact hm'⟩
  · next hf => exact (hn ⟨m, hm, by rw [hf]; trivial⟩).elim

theorem writeHeaderMirror_undone {bytes : HeaderBytes} {m : HeaderStamp}
    (hm : bytes.stamp = some m) (hn : ¬ lands (h.io.headD .ok) none bytes) :
    wp (writeHeaderMirror bytes) (fun _ _ => False) (fun _ h' => Wrote (fun _ => False) h h') h := by
  unfold writeHeaderMirror
  rw [wp_bind]
  apply wp_fault
  split
  · next hf => exact hn ⟨m, hm, by rw [hf]; trivial⟩
  · next hf => exact (hn ⟨m, hm, by rw [hf]; trivial⟩).elim
  · exact Wrote.faults _

/-- The call succeeds, or it fails before a new stamp has landed: `writes` calls
in all, the first of them over `old`. -/
def SettledWrite (h : Head) (writes : Nat) (old : Option HeaderBytes) (new : HeaderBytes) : Prop :=
  OkFor writes h ∨ ¬ lands (h.io.headD .ok) old new

/-- What the first write of `write_standard_header` goes over; a mirror is
replaced as a whole. -/
def standardOld (h : Head) : Option HeaderBytes := if h.isV2Format then none else h.files h.handle

theorem writeStandardHeader_undone {m : HeaderStamp} (hr : h.Recorded)
    (hm : (HeaderBytes.standard h.image).stamp = some m)
    (hn : ¬ lands (h.io.headD .ok) h.standardOld (.standard h.image)) :
    wp writeStandardHeader (fun _ _ => False) (fun _ h' => Wrote (fun _ => False) h h') h := by
  unfold writeStandardHeader
  rw [wp_bind, wp_get]
  unfold standardOld at hn
  split
  · next hv2 =>
      rw [if_pos hv2] at hn
      rw [wp_bind]
      exact wp_mono (writeHeaderMirror_undone hm hn) (fun _ _ hf => hf.elim) fun _ _ hw => hw
  · next hv2 =>
      rw [if_neg hv2] at hn
      rw [wp_bind]
      exact wp_mono (writeLiveHeader_undone hr hm hn) (fun _ _ hf => hf.elim) fun _ _ hw => hw

/-- `write_standard_header`: whatever happens only the new stamp is stored, and
a settled write that fails has stored none. -/
theorem writeStandardHeader_spec (hr : h.Recorded) :
    wp writeStandardHeader
      (fun _ h' => Wrote (fun m => (HeaderBytes.standard h.image).stamp = some m) h h')
      (fun _ h' => Wrote (fun m => (HeaderBytes.standard h.image).stamp = some m) h h' ∧
        (SettledWrite h h.standardWrites h.standardOld (.standard h.image) →
          Wrote (fun _ => False) h h')) h := by
  have hall := writeStandardHeader_writing hr
  apply wp_intro
  · intro a h' hrun
    have hw := wp_ok hall hrun
    exact hw
  · intro e h' hrun
    have hw := wp_error hall hrun
    refine ⟨hw, fun hs => ?_⟩
    cases hst : (HeaderBytes.standard h.image).stamp with
    | none => exact hw.weaken fun m hm => by rw [hst] at hm; cases hm
    | some m =>
        rcases hs with hok | hn
        · exact (wp_error (writeStandardHeader_ok hok) hrun).elim
        · have hw' := wp_error (writeStandardHeader_undone hr hst hn) hrun
          exact hw'

/-- The same of one live write and one sync. -/
theorem writeLiveSync_spec {bytes : HeaderBytes} (hr : h.Recorded) :
    wp (do writeLiveHeader bytes; ioStep)
      (fun _ h' => Wrote (fun m => bytes.stamp = some m) h h')
      (fun _ h' => Wrote (fun m => bytes.stamp = some m) h h' ∧
        (SettledWrite h 2 (h.files h.handle) bytes → Wrote (fun _ => False) h h')) h := by
  have hall : Writing (fun m => bytes.stamp = some m) (do writeLiveHeader bytes; ioStep) h h := by
    rw [Writing, wp_bind]
    exact wp_mono (writeLiveHeader_writing hr Wrote.refl) (fun _ _ hw => ioStep_writing hw)
      fun _ _ hw => hw
  apply wp_intro
  · intro a h' hrun
    have hw := wp_ok hall hrun
    exact hw
  · intro e h' hrun
    have hw := wp_error hall hrun
    refine ⟨hw, fun hs => ?_⟩
    cases hst : bytes.stamp with
    | none => exact hw.weaken fun m hm => by rw [hst] at hm; cases hm
    | some m =>
        rcases hs with hok | hn
        · have hsucc : wp (do writeLiveHeader bytes; ioStep) (fun _ _ => True)
              (fun _ _ => False) h := by
            rw [wp_bind]
            refine wp_mono (writeLiveHeader_ok hok) ?_ fun _ _ hf => hf
            intro _ h₁ hok₁
            exact wp_mono (ioStep_ok hok₁) (fun _ _ _ => trivial) fun _ _ hf => hf
          exact (wp_error hsucc hrun).elim
        · have hund : wp (do writeLiveHeader bytes; ioStep) (fun _ _ => False)
              (fun _ h' => Wrote (fun _ => False) h h') h := by
            rw [wp_bind]
            exact wp_mono (writeLiveHeader_undone hr hst hn) (fun _ _ hf => hf.elim)
              fun _ _ hw => hw
          have hw' := wp_error hund hrun
          exact hw'

end Head

end Luksbox
