import Luksbox.Proofs.ContainerSteps
import Luksbox.Proofs.MetadataRegion

/-!
# The metadata of a container as bytes

A container keeps what its metadata region opens to, a store the bytes of the
region. A store shows a container whose metadata its bytes open to. Each call of
a store is then a call of the container that it shows, under some schedule of
faults: the two return together and with the same plaintext, and the store shows
the container that is left.

A crash in the middle of the region leaves bytes that open to what was there, to
what was to be there, or not at all. To the container these are a write that
never began, one that was finished, and a torn one.
-/

namespace Luksbox.MetadataRegion

open Lib Relation Luksbox.Core
open Pq (CommitFault SealsWithTag)

variable {c : Crypto} {text : Metadata → List UInt8} {s : Store} {k : Container}

/-- What the bytes of a region open to. -/
def Stands (c : Crypto) (text : Metadata → List UInt8) (keys : Keys) (bytes : List UInt8) :
    Region → Prop
  | some m => readMetadata c keys bytes = .ok (text m)
  | none => ∀ pt, readMetadata c keys bytes ≠ .ok pt

/-- The bytes of the store are the metadata of the container. -/
structure Store.Shows (c : Crypto) (text : Metadata → List UInt8) (s : Store) (k : Container) :
    Prop where
  size : s.regionSize = k.header.metadataSize
  mirrored : s.mirrored = k.isV2Format
  recovered : s.recovered = k.metadataRecovered
  whole : s.live.length = s.regionSize
  live : Stands c text s.keys s.live k.live
  mirror : Option.Rel
    (fun bytes m => bytes.length = s.regionSize ∧ readMetadata c s.keys bytes = .ok (text m))
    s.mirror k.mirror

theorem Store.Shows.withIo (h : s.Shows c text k) {io : List Fault} :
    s.Shows c text (k.withIo io) :=
  ⟨h.size, h.mirrored, h.recovered, h.whole, h.live, h.mirror⟩

theorem live_withIo {io : List Fault} : (k.withIo io).live = k.live := rfl

theorem mirror_withIo {io : List Fault} : (k.withIo io).mirror = k.mirror := rfl

/-- Where a call may end. -/
def Ends {α : Type} (m : ContainerM α) (k k' : Container) : Prop :=
  (∃ a, m k = .ok a k') ∨ ∃ e, m k = .error e k'

theorem exists_end {α : Type} {m : ContainerM α} {Q : Container → Prop}
    (h : wp m (fun _ k' => Q k') (fun _ k' => Q k') k) : ∃ k', Ends m k k' ∧ Q k' := by
  cases hm : m k with
  | ok a k' => exact ⟨k', .inl ⟨a, hm⟩, wp_ok h hm⟩
  | error e k' => exact ⟨k', .inr ⟨e, hm⟩, wp_error h hm⟩

section Faults

variable {Q : Unit → Container → Prop} {E : Failure → Container → Prop} {io : List Fault}

theorem wp_ioCall_ok (h : Q () (k.withIo io)) : wp Container.ioCall Q E (k.withIo (.ok :: io)) := h

theorem wp_ioCall_before (h : E Container.ioError (k.withIo io)) :
    wp Container.ioCall Q E (k.withIo (.before :: io)) := h

end Faults

/-! ## Reading -/

/-- The faults that a read of files meets. -/
def Readable.schedule (readable : Readable) : List Fault :=
  [if readable.live then .ok else .before, if readable.mirror then .ok else .before]

theorem read_shown (h : s.Shows c text k) (readable : Readable) :
    wp Container.readMetadata
      (fun m k' => ∃ s', s.read c readable = (.ok (text m), s') ∧ s'.Shows c text k')
      (fun _ k' => ∃ e s', s.read c readable = (.error e, s') ∧ s'.Shows c text k')
      (k.withIo readable.schedule) := by
  obtain ⟨readsLive, readsMirror⟩ := readable
  unfold Container.readMetadata
  rw [wp_bind]
  cases readsLive with
  | false => exact wp_ioCall_before ⟨.io, s, if_pos (.inl rfl), h.withIo⟩
  | true =>
      refine wp_ioCall_ok ?_
      have hwhole : ¬ (true = false ∨ s.live.length ≠ s.regionSize) :=
        not_or.mpr ⟨nofun, not_not.mpr h.whole⟩
      have hlive := h.live
      rw [wp_bind, wp_get]
      cases hk : k.live with
      | some m =>
          rw [hk] at hlive
          have hlive : readMetadata c s.keys s.live = .ok (text m) := hlive
          rw [live_withIo, hk]
          refine ⟨s, ?_, h.withIo⟩
          unfold Store.read
          rw [if_neg hwhole, hlive]
      | none =>
          rw [hk] at hlive
          cases hread : readMetadata c s.keys s.live with
          | ok pt => exact absurd hread (hlive pt)
          | error e =>
              have hmirror := h.mirror
              cases hs : s.mirror with
              | none =>
                  rw [hs] at hmirror
                  cases hm : k.mirror with
                  | some m =>
                      rw [hm] at hmirror
                      cases hmirror
                  | none =>
                      rw [live_withIo, hk]
                      dsimp only
                      rw [mirror_withIo, hm]
                      refine ⟨e, s, ?_, h.withIo⟩
                      unfold Store.read
                      rw [if_neg hwhole, hread, hs]
              | some bytes =>
                  rw [hs] at hmirror
                  cases hm : k.mirror with
                  | none =>
                      rw [hm] at hmirror
                      cases hmirror
                  | some m =>
                      rw [hm] at hmirror
                      cases hmirror with
                      | some hbytes =>
                          rw [live_withIo, hk]
                          dsimp only
                          rw [mirror_withIo, hm]
                          dsimp only
                          rw [wp_bind, wp_attempt]
                          cases readsMirror with
                          | false =>
                              refine wp_ioCall_before ⟨e, s, ?_, h.withIo⟩
                              unfold Store.read
                              rw [if_neg hwhole, hread, hs]
                              exact if_pos (.inl rfl)
                          | true =>
                              refine wp_ioCall_ok ⟨{ s with recovered := true }, ?_, ?_⟩
                              · unfold Store.read
                                rw [if_neg hwhole, hread, hs]
                                dsimp only
                                rw [if_neg (not_or.mpr ⟨nofun, not_not.mpr hbytes.1⟩), hbytes.2]
                              · exact ⟨h.size, h.mirrored, rfl, h.whole, h.live, h.mirror⟩

/-! ## Writing -/

/-- The overwrite of the region and the syncs behind it. -/
theorem writeLive_shown (h : s.Shows c text k) {m : Metadata} {region : List UInt8}
    (hlen : region.length = s.regionSize) (hread : readMetadata c s.keys region = .ok (text m))
    {fault : LiveFault}
    (htorn : ∀ left, fault = .torn left → left.length = s.regionSize ∧
      ∀ p, readMetadata c s.keys left = .ok p →
        p = text m ∨ readMetadata c s.keys s.live = .ok p) :
    ∃ io, wp (do
        Container.writeLive m
        Container.syncAll
        Container.ioCall : ContainerM Unit)
      (fun _ k' => (s.writeLive region fault).1 = true ∧
        (s.writeLive region fault).2.Shows c text k')
      (fun _ k' => (s.writeLive region fault).1 = false ∧
        (s.writeLive region fault).2.Shows c text k') (k.withIo io) := by
  cases fault with
  | none =>
      exact ⟨[], And.intro rfl ⟨h.size, h.mirrored, h.recovered, hlen, hread, h.mirror⟩⟩
  | before => exact ⟨[.before], And.intro rfl h.withIo⟩
  | after =>
      exact ⟨[.after], And.intro rfl ⟨h.size, h.mirrored, h.recovered, hlen, hread, h.mirror⟩⟩
  | torn left =>
      obtain ⟨hleft, hopens⟩ := htorn left rfl
      cases hl : readMetadata c s.keys left with
      | error e =>
          refine ⟨[.torn Slot.garbage 0], And.intro rfl
            ⟨h.size, h.mirrored, h.recovered, hleft, fun pt hpt => ?_, h.mirror⟩⟩
          cases hl.symm.trans hpt
      | ok p =>
          rcases hopens p hl with rfl | hold
          · exact ⟨[.after], And.intro rfl
              ⟨h.size, h.mirrored, h.recovered, hleft, hl, h.mirror⟩⟩
          · refine ⟨[.before], And.intro rfl
              ⟨h.size, h.mirrored, h.recovered, hleft, ?_, h.mirror⟩⟩
            have hlive := h.live
            show Stands c text s.keys left k.live
            cases hk : k.live with
            | none =>
                rw [hk] at hlive
                exact absurd hold (hlive p)
            | some m₀ =>
                rw [hk] at hlive
                exact hl.trans (hold.symm.trans hlive)

section Parts

variable {Q : Unit → Container → Prop} {E : Failure → Container → Prop} {m : Metadata}

theorem writeMetadata_large (hlarge : m.len + Luksbox.metadataOverhead > k.header.metadataSize)
    (h : E (.err (.format .metadataTooLarge)) k) : wp (Container.writeMetadata m) Q E k := by
  unfold Container.writeMetadata
  rw [wp_bind, wp_get]
  show wp (if _ then _ else _) _ _ _
  rw [if_pos hlarge]
  exact h

theorem writeMetadata_mirrored (hroom : ¬ m.len + Luksbox.metadataOverhead > k.header.metadataSize)
    (hv2 : k.isV2Format = true)
    (h : wp (do
        Container.writeMetadataMirror m
        Container.writeLive m
        Container.syncAll
        Container.ioCall : ContainerM Unit) Q E k) : wp (Container.writeMetadata m) Q E k := by
  unfold Container.writeMetadata
  rw [wp_bind, wp_get]
  show wp (if _ then _ else _) _ _ _
  rw [if_neg hroom]
  show wp (if k.isV2Format = true then _ else _) _ _ _
  rw [if_pos hv2]
  exact h

theorem writeMetadata_single (hroom : ¬ m.len + Luksbox.metadataOverhead > k.header.metadataSize)
    (hv1 : ¬ k.isV2Format = true)
    (h : wp (do
        Container.writeLive m
        Container.syncAll
        Container.ioCall : ContainerM Unit) Q E k) : wp (Container.writeMetadata m) Q E k := by
  unfold Container.writeMetadata
  rw [wp_bind, wp_get]
  show wp (if _ then _ else _) _ _ _
  rw [if_neg hroom]
  show wp (if k.isV2Format = true then _ else _) _ _ _
  rw [if_neg hv1]
  exact h

end Parts

theorem ended {r : Bool × Store} (h : r.1 = true ∧ r.2.Shows c text k) :
    (match r with
      | (false, s₂) => ((.error .io : Except Error Unit), s₂)
      | (true, s₂) => (.ok (), s₂)).1 = .ok () ∧
    (match r with
      | (false, s₂) => ((.error .io : Except Error Unit), s₂)
      | (true, s₂) => (.ok (), s₂)).2.Shows c text k := by
  obtain ⟨_, _⟩ := r
  obtain ⟨rfl, hs⟩ := h
  exact ⟨rfl, hs⟩

theorem failed {r : Bool × Store} (h : r.1 = false ∧ r.2.Shows c text k) :
    (match r with
      | (false, s₂) => ((.error .io : Except Error Unit), s₂)
      | (true, s₂) => (.ok (), s₂)).1 ≠ .ok () ∧
    (match r with
      | (false, s₂) => ((.error .io : Except Error Unit), s₂)
      | (true, s₂) => (.ok (), s₂)).2.Shows c text k := by
  obtain ⟨_, _⟩ := r
  obtain ⟨rfl, hs⟩ := h
  exact ⟨nofun, hs⟩

/-- A write of the store is a write of the container. -/
theorem write_shown (hc : c.OpensSealed) (htag : ∀ suite, SealsWithTag c suite)
    (htext : ∀ m, (text m).length = m.len) (h : s.Shows c text k) (hsize : s.regionSize < 2 ^ 64)
    {m : Metadata} {draws : Draws} {mirror : CommitFault} {live : LiveFault}
    (hfair : s.Fair c (.write (text m) draws mirror live))
    (hleft : ∀ left, live = .torn left → left.length = s.regionSize) :
    ∃ io, wp (Container.writeMetadata m)
      (fun _ k' => (s.write c (text m) draws mirror live).1 = .ok () ∧
        (s.write c (text m) draws mirror live).2.Shows c text k')
      (fun _ k' => (s.write c (text m) draws mirror live).1 ≠ .ok () ∧
        (s.write c (text m) draws mirror live).2.Shows c text k') (k.withIo io) := by
  have hbudget : m.len + Luksbox.metadataOverhead > k.header.metadataSize ↔
      (text m).length + metadataOverhead > s.regionSize := by
    rw [htext, h.size]
    rfl
  unfold Store.write
  by_cases hfit : (text m).length + metadataOverhead > s.regionSize
  · rw [if_pos hfit]
    exact ⟨[], writeMetadata_large (hbudget.mpr hfit) ⟨nofun, h.withIo⟩⟩
  rw [if_neg hfit]
  have hroom : ¬ m.len + Luksbox.metadataOverhead > k.header.metadataSize := fun hbig =>
    hfit (hbudget.mp hbig)
  have htorn : ∀ left, live = .torn left → left.length = s.regionSize ∧
      ∀ p, readMetadata c s.keys left = .ok p →
        p = text m ∨ readMetadata c s.keys s.live = .ok p := by
    intro left hl
    rw [hl] at hfair
    exact ⟨hleft left hl, hfair⟩
  cases hw : writeMetadata c s.keys (text m) s.regionSize draws with
  | error e =>
      -- nothing is written: to the container the first of the files was not reached
      refine ⟨[.before], ?_⟩
      by_cases hv2 : k.isV2Format = true
      · exact writeMetadata_mirrored hroom hv2 (And.intro nofun h.withIo)
      · exact writeMetadata_single hroom hv2 (And.intro nofun h.withIo)
  | ok region =>
      have hread := readMetadata_written hc htag hsize hw
      obtain ⟨-, _, _, _, -, -, -, hlen⟩ := writeMetadata_ok htag hw
      dsimp only
      unfold Store.writeMirror
      by_cases hm : s.mirrored = true
      · have hv2 : k.isV2Format = true := by rw [← h.mirrored, hm]
        have h₁ : Store.Shows c text { s with mirror := some region } { k with mirror := some m } :=
          ⟨h.size, h.mirrored, h.recovered, h.whole, h.live, .some ⟨hlen, hread⟩⟩
        rw [if_pos hm]
        cases mirror with
        | before =>
            exact ⟨[.before], writeMetadata_mirrored hroom hv2 (And.intro nofun h.withIo)⟩
        | after =>
            exact ⟨[.after], writeMetadata_mirrored hroom hv2
              (And.intro nofun (@Store.Shows.withIo _ _ _ _ h₁ []))⟩
        | none =>
            obtain ⟨io, hlive⟩ := writeLive_shown h₁ hlen hread htorn
            refine ⟨.ok :: io, writeMetadata_mirrored hroom hv2 ?_⟩
            have hmirror : wp (Container.writeMetadataMirror m)
                (fun _ k' => k' = Container.withIo { k with mirror := some m } io)
                (fun _ _ => False) (k.withIo (.ok :: io)) := rfl
            rw [wp_bind]
            refine wp_mono hmirror (fun _ k' hk' => ?_) fun _ _ => False.elim
            rw [hk']
            exact wp_mono hlive (fun _ _ h' => ended h') fun _ _ h' => failed h'
      · have hv1 : ¬ k.isV2Format = true := by
          rw [← h.mirrored]
          exact hm
        rw [if_neg hm]
        obtain ⟨io, hlive⟩ := writeLive_shown h hlen hread htorn
        refine ⟨io, writeMetadata_single hroom hv1 (wp_mono hlive ?_ ?_)⟩
        · exact fun _ _ h' => ended h'
        · exact fun _ _ h' => failed h'

/-! ## Runs -/

/-- A call that writes or reads the metadata, under some schedule of faults. -/
def MetadataCall (k k' : Container) : Prop :=
  ∃ io, (∃ m, Ends (Container.writeMetadata m) (k.withIo io) k') ∨
    Ends Container.readMetadata (k.withIo io) k'

/-- The calls among the events. A torn write leaves the region its size. -/
def Event.IsCall (text : Metadata → List UInt8) (size : Nat) : Event → Prop
  | .write pt _ _ live => (∃ m, pt = text m) ∧ ∀ left, live = .torn left → left.length = size
  | .read _ => True
  | .damage _ => False

theorem step_size {e : Event} : (s.step c e).regionSize = s.regionSize := by
  cases e with
  | write pt draws mirror live =>
      show (s.write c pt draws mirror live).2.regionSize = _
      unfold Store.write
      split
      · rfl
      · cases writeMetadata c s.keys pt s.regionSize draws with
        | error e => rfl
        | ok region =>
            dsimp only
            unfold Store.writeMirror
            cases s.mirrored <;> cases mirror <;> cases live <;> rfl
  | read readable =>
      show (s.read c readable).2.regionSize = _
      rcases Store.Holds.read_same with h | h <;> rw [h]
  | damage bytes => rfl

/-- Each call of a store is one of the container it shows. -/
theorem step_shown (hc : c.OpensSealed) (htag : ∀ suite, SealsWithTag c suite)
    (htext : ∀ m, (text m).length = m.len) (h : s.Shows c text k) (hsize : s.regionSize < 2 ^ 64)
    {e : Event} (he : e.IsCall text s.regionSize) (hfair : s.Fair c e) :
    ∃ k', MetadataCall k k' ∧ (s.step c e).Shows c text k' := by
  cases e with
  | write pt draws mirror live =>
      obtain ⟨⟨m, rfl⟩, hleft⟩ := he
      obtain ⟨io, hspec⟩ := write_shown hc htag htext h hsize hfair hleft
      obtain ⟨k', hend, hs⟩ := exists_end
        (wp_mono hspec (fun _ _ h' => h'.2) fun _ _ h' => h'.2)
      exact ⟨k', ⟨io, .inl ⟨m, hend⟩⟩, hs⟩
  | read readable =>
      have hspec := read_shown h readable
      obtain ⟨k', hend, hs⟩ := exists_end (Q := (s.step c (.read readable)).Shows c text) <| by
        refine wp_mono hspec ?_ ?_
        · rintro m k' ⟨s', hread, hs⟩
          show (s.read c readable).2.Shows c text k'
          rw [hread]
          exact hs
        · rintro e k' ⟨e', s', hread, hs⟩
          show (s.read c readable).2.Shows c text k'
          rw [hread]
          exact hs
      exact ⟨k', ⟨readable.schedule, .inr hend⟩, hs⟩
  | damage bytes => exact he.elim

/-- A run of a store is a run of the container it shows. -/
theorem run_shown (hc : c.OpensSealed) (htag : ∀ suite, SealsWithTag c suite)
    (htext : ∀ m, (text m).length = m.len) (h : s.Shows c text k) (hsize : s.regionSize < 2 ^ 64)
    {events : List Event} (hcalls : ∀ e ∈ events, e.IsCall text s.regionSize)
    (hfair : s.RunsFair c events) :
    ∃ k', ReflTransGen MetadataCall k k' ∧ (s.run c events).Shows c text k' := by
  induction events generalizing s k with
  | nil => exact ⟨k, .refl, h⟩
  | cons e rest ih =>
      obtain ⟨k₁, hcall, h₁⟩ :=
        step_shown hc htag htext h hsize (hcalls e List.mem_cons_self) hfair.1
      have hrest : ∀ e' ∈ rest, e'.IsCall text (s.step c e).regionSize := by
        rw [step_size]
        exact fun e' he' => hcalls e' (List.mem_cons_of_mem e he')
      obtain ⟨k', hrun, hs⟩ := ih h₁ (step_size.trans_lt hsize) hrest hfair.2
      exact ⟨k', .head hcall hrun, hs⟩

end Luksbox.MetadataRegion
