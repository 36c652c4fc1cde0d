import Mathlib.Order.CompletePartialOrder
import Mathlib.Data.Set.Lattice
import Mathlib.Order.Interval.Set.Basic
import Luksbox.Proofs.Dispatch

/-!
# Where the regions of an open vault lie

An open vault has a header (in the vault file unless it is detached), a metadata
region and a data area that goes to the end. `RegionsDisjoint` says that they do
not overlap, and `WritesSafe` what follows for the writes.

The parser guarantees the order of metadata and data. It does not know where the
header is stored; the loader of the live header adds the check for an inline
one, and the recovery from the mirror does not. The deniable parser adds the two
fields with saturation. So two kinds of input remain that open with regions that
overlap, and `opened_regions_disjoint_iff` says that these are all.
-/

namespace Luksbox.Core

open Lib

/-! ## Regions -/

def Extent.bytes (x : Extent) : Set Nat := {n | x.lo ≤ n ∧ ∀ hi ∈ x.hi, n < hi}

/-- The bytes of the header in the vault file. -/
def HeaderStorage.headerLen : HeaderStorage → Nat
  | .inline => headerSize
  | .detached => 0

structure RegionsDisjoint (headerLen : Nat) (e : Header.Extents) : Prop where
  header_metadata : Disjoint (Set.Iio headerLen)
    (Set.Ico e.metadataOffset.toNat (e.metadataOffset.toNat + e.metadataSize.toNat))
  header_data : Disjoint (Set.Iio headerLen) (Set.Ici e.dataOffset.toNat)
  metadata_data : Disjoint
    (Set.Ico e.metadataOffset.toNat (e.metadataOffset.toNat + e.metadataSize.toNat))
    (Set.Ici e.dataOffset.toNat)
  no_overflow : e.metadataOffset.toNat + e.metadataSize.toNat ≤ 2 ^ 64 - 1

/-- No write reaches the header, and none to a chunk the metadata. -/
structure WritesSafe (headerLen : Nat) (e : Header.Extents) : Prop where
  metadata : ∀ n ∈ e.metadataWrite.bytes, headerLen ≤ n
  chunk : ∀ chunkId, ∀ x ∈ e.chunkWrite chunkId, ∀ n ∈ x.bytes,
    headerLen ≤ n ∧ n ∉ e.metadataWrite.bytes
  truncate : ∀ len, ∀ x ∈ e.truncateDataFile len, ∀ n ∈ x.bytes,
    headerLen ≤ n ∧ n ∉ e.metadataWrite.bytes

theorem disjoint_Iio_Ico {a b c : Nat} :
    Disjoint (Set.Iio a) (Set.Ico b c) ↔ a ≤ b ∨ c ≤ b ∨ a = 0 := by
  rw [Set.disjoint_left]
  constructor
  · intro h
    by_contra hno
    have hb : b < a := by omega
    exact h hb ⟨Nat.le_refl b, by omega⟩
  · intro h n hn hm
    have : n < a := hn
    have : b ≤ n ∧ n < c := hm
    omega

theorem disjoint_Iio_Ici {a b : Nat} : Disjoint (Set.Iio a) (Set.Ici b) ↔ a ≤ b := by
  rw [Set.disjoint_left]
  constructor
  · intro h
    by_contra hno
    have hb : b < a := by omega
    exact h hb (Nat.le_refl b)
  · intro h n hn hm
    have : n < a := hn
    have : b ≤ n := hm
    omega

theorem disjoint_Ico_Ici {a b c : Nat} : Disjoint (Set.Ico a b) (Set.Ici c) ↔ b ≤ c ∨ b ≤ a := by
  rw [Set.disjoint_left]
  constructor
  · intro h
    by_contra hno
    have hmem : max a c ∈ Set.Ico a b := ⟨Nat.le_max_left a c, by omega⟩
    exact h hmem (Nat.le_max_right a c)
  · intro h n hn hm
    have : a ≤ n ∧ n < b := hn
    have : c ≤ n := hm
    omega

section Regions

variable {headerLen : Nat} {e : Header.Extents}

theorem regionsDisjoint_iff :
    RegionsDisjoint headerLen e
      ↔ (headerLen ≤ e.metadataOffset.toNat ∨ e.metadataSize.toNat = 0 ∨ headerLen = 0)
        ∧ headerLen ≤ e.dataOffset.toNat
        ∧ (e.metadataOffset.toNat + e.metadataSize.toNat ≤ e.dataOffset.toNat
            ∨ e.metadataSize.toNat = 0)
        ∧ e.metadataOffset.toNat + e.metadataSize.toNat ≤ 2 ^ 64 - 1 := by
  constructor
  · rintro ⟨h₁, h₂, h₃, h₄⟩
    rw [disjoint_Iio_Ico] at h₁
    rw [disjoint_Iio_Ici] at h₂
    rw [disjoint_Ico_Ici] at h₃
    exact ⟨by omega, h₂, by omega, h₄⟩
  · rintro ⟨h₁, h₂, h₃, h₄⟩
    exact ⟨disjoint_Iio_Ico.mpr (by omega), disjoint_Iio_Ici.mpr h₂,
      disjoint_Ico_Ici.mpr (by omega), h₄⟩

theorem chunkWrite_lo {chunkId : Nat} {x : Extent} (h : x ∈ e.chunkWrite chunkId) :
    e.dataOffset.toNat ≤ x.lo := by
  unfold Header.Extents.chunkWrite at h
  simp only at h
  split at h
  · cases h
  · cases h
    exact Nat.le_add_right _ _

theorem truncateDataFile_lo {len : Nat} {x : Extent} (h : x ∈ e.truncateDataFile len) :
    e.dataOffset.toNat ≤ x.lo := by
  unfold Header.Extents.truncateDataFile at h
  split at h
  · cases h
  next hle =>
    cases h
    exact Nat.not_lt.mp hle

theorem mem_metadataWrite {n : Nat} :
    n ∈ e.metadataWrite.bytes
      ↔ n ∈ Set.Ico e.metadataOffset.toNat (e.metadataOffset.toNat + e.metadataSize.toNat) := by
  unfold Header.Extents.metadataWrite Extent.bytes
  simp

/-- Disjoint regions make every write safe. -/
theorem RegionsDisjoint.writesSafe (h : RegionsDisjoint headerLen e) : WritesSafe headerLen e := by
  have hdata : ∀ n, e.dataOffset.toNat ≤ n → headerLen ≤ n ∧ n ∉ e.metadataWrite.bytes := by
    intro n hn
    constructor
    · by_contra hlt
      exact Set.disjoint_left.mp h.header_data (Nat.not_le.mp hlt) hn
    · intro hmem
      exact Set.disjoint_left.mp h.metadata_data (mem_metadataWrite.mp hmem) hn
  refine ⟨fun n hn => ?_, fun chunkId x hx n hn => ?_, fun len x hx n hn => ?_⟩
  · by_contra hlt
    exact Set.disjoint_left.mp h.header_metadata (Nat.not_le.mp hlt) (mem_metadataWrite.mp hn)
  · exact hdata n ((chunkWrite_lo hx).trans hn.1)
  · exact hdata n ((truncateDataFile_lo hx).trans hn.1)

end Regions

/-! ## What the parsers guarantee -/

/-- The three fields as they lie in a header. -/
def rawExtents (buf : Buf 8192) : Header.Extents where
  metadataOffset := UInt64.ofNat (leNat (buf.read 56 8))
  metadataSize := UInt64.ofNat (leNat (buf.read 64 8))
  dataOffset := UInt64.ofNat (leNat (buf.read 72 8))

theorem readExtents_eq (buf : Buf 8192) : Header.readExtents buf = .ok (rawExtents buf) := by
  unfold Header.readExtents
  rw [u64At_ok (by decide), u64At_ok (by decide), u64At_ok (by decide), ok_bind, ok_bind, ok_bind]
  rfl

theorem fromBytes_extents {buf : Buf 8192} {h : Header} (hok : Header.fromBytes buf = .ok h) :
    h.extents = rawExtents buf := by
  have he := (Header.fromBytes_parsed hok).extents
  rw [readExtents_eq] at he
  exact (Except.ok.inj he).symm

theorem Extents_check_ok {e : Header.Extents} (h : e.check = .ok ()) :
    e.metadataOffset.toNat + e.metadataSize.toNat < 2 ^ 64
      ∧ e.metadataOffset.toNat + e.metadataSize.toNat ≤ e.dataOffset.toNat := by
  unfold Header.Extents.check at h
  obtain ⟨-, h⟩ := except_ite_eq_ok.mp h
  obtain ⟨hsum, h⟩ := except_ite_eq_ok.mp h
  obtain ⟨-, h⟩ := except_ite_eq_ok.mp h
  obtain ⟨hdata, -⟩ := except_ite_eq_ok.mp h
  exact ⟨Nat.not_le.mp hsum, Nat.not_lt.mp hdata⟩

/-! ## Opening a standard vault -/

/-- A mirror whose regions lie behind an inline header. -/
def MirrorSafe (bytes : List UInt8) : Prop :=
  ((rawExtents (bufOf bytes)).metadataSize.toNat = 0
      ∨ headerSize ≤ (rawExtents (bufOf bytes)).metadataOffset.toNat)
    ∧ headerSize ≤ (rawExtents (bufOf bytes)).dataOffset.toNat

/-- The header is detached, or the live one loads, or the mirror is safe. -/
def LayoutSafe (f : VaultFiles) : Prop :=
  f.header.isSome = true ∨ (∃ x, loadLockedHeader f = .ok x) ∨ ∀ bytes ∈ f.mirror, MirrorSafe bytes

variable {f : VaultFiles} {unlock : Header → Buf 8192 → Except OpenError Key} {o : Opened}

/-- What the loader of the live header has checked. -/
theorem loadLockedHeader_ok {bytes : Buf 8192} {h : Header}
    (hok : loadLockedHeader f = .ok (bytes, h)) :
    h.extents.check = .ok ()
      ∧ (f.storage = .inline → headerSize ≤ h.metadataOffset.toNat ∧ headerSize ≤ h.dataOffset.toNat)
      := by
  unfold loadLockedHeader at hok
  obtain ⟨raw, -, hok⟩ := except_bind_eq_ok.mp hok
  obtain ⟨header, hparse, hok⟩ := except_bind_eq_ok.mp hok
  split at hok
  · cases hok
  next hinline =>
    cases hok
    refine ⟨(Header.fromBytes_wellFormed (liftCrypto_ok.mp hparse)).extents, fun hstorage => ?_⟩
    rw [hstorage] at hinline
    simp only [true_and, not_or, Nat.not_lt] at hinline
    exact hinline

theorem tryUnlockViaMirror_ok {h : Header} {mvk : Key}
    (hok : tryUnlockViaMirror f.mirror unlock = some (.ok (h, mvk))) :
    ∃ bytes, f.mirror = some bytes ∧ Header.fromBytes (bufOf bytes) = .ok h := by
  unfold tryUnlockViaMirror at hok
  cases hm : f.mirror with
  | none =>
      rw [hm] at hok
      cases hok
  | some bytes =>
      rw [hm] at hok
      have hok := Option.some.inj hok
      split at hok
      · cases hok
      · obtain ⟨header, hparse, hok⟩ := except_bind_eq_ok.mp hok
        obtain ⟨k, -, hok⟩ := except_bind_eq_ok.mp hok
        cases hok
        exact ⟨bytes, rfl, liftCrypto_ok.mp hparse⟩

/-- An open went through the live header or through the mirror. -/
theorem openLocked_cases (hok : openLockedWithHeaderRecovery f unlock = .ok o) :
    o.storage = f.storage
      ∧ ((∃ bytes, loadLockedHeader f = .ok (bytes, o.header))
        ∨ (¬ ∃ x, loadLockedHeader f = .ok x)
          ∧ ∃ bytes, f.mirror = some bytes ∧ Header.fromBytes (bufOf bytes) = .ok o.header) := by
  unfold openLockedWithHeaderRecovery at hok
  split at hok
  next bytes header hload =>
    obtain ⟨mvk, -, hok⟩ := except_bind_eq_ok.mp hok
    cases hok
    exact ⟨rfl, Or.inl ⟨bytes, hload⟩⟩
  next liveErr hload =>
    split at hok
    next header mvk hmirror =>
      cases hok
      refine ⟨rfl, Or.inr ⟨?_, tryUnlockViaMirror_ok hmirror⟩⟩
      rintro ⟨x, hx⟩
      rw [hload] at hx
      cases hx
    · cases hok

theorem storage_inline (h : f.header.isSome = false) : f.storage = .inline := by
  unfold VaultFiles.storage
  rw [Option.isSome_eq_false_iff, Option.isNone_iff_eq_none] at h
  rw [h]

theorem storage_detached (h : f.header.isSome = true) : f.storage = .detached := by
  obtain ⟨bytes, hb⟩ := Option.isSome_iff_exists.mp h
  unfold VaultFiles.storage
  rw [hb]

theorem regionsDisjoint_of_check {e : Header.Extents} (hcheck : e.check = .ok ()) (headerLen : Nat) :
    RegionsDisjoint headerLen e
      ↔ (headerLen ≤ e.metadataOffset.toNat ∨ e.metadataSize.toNat = 0 ∨ headerLen = 0)
        ∧ headerLen ≤ e.dataOffset.toNat := by
  have hle := Extents_check_ok hcheck
  rw [regionsDisjoint_iff]
  constructor
  · rintro ⟨h₁, h₂, -, -⟩
    exact ⟨h₁, h₂⟩
  · rintro ⟨h₁, h₂⟩
    exact ⟨h₁, h₂, Or.inl hle.2, by omega⟩

theorem openLocked_disjoint_iff (hok : openLockedWithHeaderRecovery f unlock = .ok o) :
    RegionsDisjoint o.storage.headerLen o.header.extents ↔ LayoutSafe f := by
  obtain ⟨hstorage, hcases⟩ := openLocked_cases hok
  rw [hstorage]
  have hcheck : o.header.extents.check = .ok () := by
    rcases hcases with ⟨bytes, hload⟩ | ⟨-, bytes, -, hparse⟩
    · exact (loadLockedHeader_ok hload).1
    · exact (Header.fromBytes_wellFormed hparse).extents
  rw [regionsDisjoint_of_check hcheck]
  cases hdetached : f.header.isSome with
  | true =>
      rw [storage_detached hdetached]
      exact ⟨fun _ => Or.inl hdetached, fun _ => ⟨Or.inr (Or.inr rfl), Nat.zero_le _⟩⟩
  | false =>
      rw [storage_inline hdetached]
      rcases hcases with ⟨bytes, hload⟩ | ⟨hnone, bytes, hm, hparse⟩
      · have hin := (loadLockedHeader_ok hload).2 (storage_inline hdetached)
        exact ⟨fun _ => Or.inr (Or.inl ⟨_, hload⟩), fun _ => ⟨Or.inl hin.1, hin.2⟩⟩
      · rw [fromBytes_extents hparse]
        constructor
        · rintro ⟨hmeta, hdata⟩
          refine Or.inr (Or.inr fun bytes' hb => ?_)
          rw [hm] at hb
          cases hb
          refine ⟨?_, hdata⟩
          rcases hmeta with h | h | h
          · exact Or.inr h
          · exact Or.inl h
          · cases h
        · rintro (h | h | h)
          · rw [hdetached] at h
            cases h
          · exact absurd h hnone
          · have hsafe := h bytes (by rw [hm]; rfl)
            exact ⟨hsafe.1.symm.imp id Or.inl, hsafe.2⟩

/-! ## Opening a deniable vault -/

def DeniableInnerHeader.extents (inner : DeniableInnerHeader) : Header.Extents :=
  ⟨inner.metadataOffset, inner.metadataSize, inner.dataOffset⟩

/-- The plaintext an open of the inner region uses. -/
def InnerRegion.plaintext (r : InnerRegion) : Option (List UInt8) := r.underV3.or r.underV2

/-- The end of the metadata does not saturate. -/
def InnerSafe (pt : List UInt8) : Prop :=
  DeniableInnerHeader.field pt 10 8 + DeniableInnerHeader.field pt 18 8 ≤ 2 ^ 64 - 1

theorem field_lt (buf : List UInt8) (lo : Nat) : DeniableInnerHeader.field buf lo 8 < 2 ^ 64 := by
  unfold DeniableInnerHeader.field
  have h := leNat_lt ((buf.drop lo).take 8)
  have hlen : ((buf.drop lo).take 8).length ≤ 8 := List.length_take_le _ _
  exact h.trans_le (Nat.pow_le_pow_right (by decide) hlen)

theorem parse_ok {pt : List UInt8} {inner : DeniableInnerHeader}
    (h : DeniableInnerHeader.parse pt = .ok inner) :
    inner.metadataOffset.toNat = DeniableInnerHeader.field pt 10 8
      ∧ inner.metadataSize.toNat = DeniableInnerHeader.field pt 18 8
      ∧ deniableHeaderSize ≤ inner.metadataOffset.toNat
      ∧ DeniableInnerHeader.saturatingAdd inner.metadataOffset.toNat inner.metadataSize.toNat
        ≤ inner.dataOffset.toNat := by
  unfold DeniableInnerHeader.parse at h
  obtain ⟨-, h⟩ := except_ite_eq_ok.mp h
  obtain ⟨suite, -, h⟩ := except_bind_eq_ok.mp h
  obtain ⟨kdf, -, h⟩ := except_bind_eq_ok.mp h
  obtain ⟨-, h⟩ := except_ite_eq_ok.mp h
  obtain ⟨-, h⟩ := except_ite_eq_ok.mp h
  obtain ⟨hdata, h⟩ := except_ite_eq_ok.mp h
  obtain ⟨hoff, h⟩ := except_ite_eq_ok.mp h
  have h := Except.ok.inj h
  have hm : inner.metadataOffset.toNat = DeniableInnerHeader.field pt 10 8 := by
    rw [← h]
    exact UInt64.toNat_ofNat_of_lt' (field_lt _ _)
  have hs : inner.metadataSize.toNat = DeniableInnerHeader.field pt 18 8 := by
    rw [← h]
    exact UInt64.toNat_ofNat_of_lt' (field_lt _ _)
  have hd : inner.dataOffset.toNat = DeniableInnerHeader.field pt 26 8 := by
    rw [← h]
    exact UInt64.toNat_ofNat_of_lt' (field_lt _ _)
  rw [hm, hs, hd]
  exact ⟨rfl, rfl, Nat.not_lt.mp hoff, Nat.not_lt.mp hdata⟩

theorem openInnerRegion_ok {r : InnerRegion} {inner : DeniableInnerHeader}
    (h : openInnerRegion r = .ok inner) :
    ∃ pt, r.plaintext = some pt ∧ DeniableInnerHeader.parse pt = .ok inner := by
  unfold openInnerRegion at h
  unfold InnerRegion.plaintext
  split at h
  next pt hpt =>
    rw [hpt]
    split at h
    · cases h
    next inner' hparse =>
      split at h
      · cases h
      · split at h
        · cases h
          exact ⟨pt, rfl, hparse⟩
        · cases h
  next hnone =>
    rw [hnone]
    split at h
    · cases h
    next pt hpt =>
      rw [hpt]
      split at h
      · cases h
      next inner' hparse =>
        cases h
        exact ⟨pt, rfl, hparse⟩

theorem openInner_disjoint_iff {r : InnerRegion} {inner : DeniableInnerHeader}
    (h : openInnerRegion r = .ok inner) :
    RegionsDisjoint deniableHeaderSize inner.extents ↔ ∀ pt ∈ r.plaintext, InnerSafe pt := by
  obtain ⟨pt, hpt, hparse⟩ := openInnerRegion_ok h
  obtain ⟨hm, hs, hoff, hdata⟩ := parse_ok hparse
  have hsafe : (∀ pt ∈ r.plaintext, InnerSafe pt)
      ↔ inner.metadataOffset.toNat + inner.metadataSize.toNat ≤ 2 ^ 64 - 1 := by
    rw [hm, hs, hpt]
    constructor
    · exact fun h => h pt rfl
    · intro h pt' hpt'
      cases hpt'
      exact h
  rw [hsafe, regionsDisjoint_iff]
  unfold DeniableInnerHeader.saturatingAdd at hdata
  unfold DeniableInnerHeader.extents
  constructor
  · exact fun h => h.2.2.2
  · intro hle
    rw [Nat.min_eq_left hle] at hdata
    exact ⟨Or.inl hoff, hoff.trans ((Nat.le_add_right _ _).trans hdata), Or.inl hdata, hle⟩

/-! ## All open paths -/

/-- The regions of an open vault are disjoint, and all writes safe. -/
def LayoutHolds (headerLen : Nat) (e : Header.Extents) : Prop :=
  RegionsDisjoint headerLen e ∧ WritesSafe headerLen e

theorem layoutHolds_iff {headerLen : Nat} {e : Header.Extents} :
    LayoutHolds headerLen e ↔ RegionsDisjoint headerLen e :=
  ⟨fun h => h.1, fun h => ⟨h, h.writesSafe⟩⟩

/-- Whenever an open path returns, the regions are disjoint exactly if the mirror
that an inline vault was recovered from has its regions behind the header, and
the metadata of a deniable vault ends below `2^64`. -/
theorem opened_regions_disjoint_iff (c : Crypto) (f : VaultFiles) (r : InnerRegion) :
    (∀ (material : UnlockMaterial) (o : Opened), openContainer c f material = .ok o →
        (LayoutHolds o.storage.headerLen o.header.extents ↔ LayoutSafe f))
      ∧ (∀ (mvk : Key) (o : Opened), openContainerWithMvk c f mvk = .ok o →
          (LayoutHolds o.storage.headerLen o.header.extents ↔ LayoutSafe f))
      ∧ (∀ inner : DeniableInnerHeader, openInnerRegion r = .ok inner →
          (LayoutHolds deniableHeaderSize inner.extents ↔ ∀ pt ∈ r.plaintext, InnerSafe pt))
      ∧ ∀ inner opened : DeniableInnerHeader, openWithMvkDeniable r inner = .ok opened →
          (LayoutHolds deniableHeaderSize opened.extents ↔ ∀ pt ∈ r.plaintext, InnerSafe pt) := by
  refine ⟨fun material o hok => ?_, fun mvk o hok => ?_, fun inner hok => ?_,
    fun inner opened hok => ?_⟩
  · rw [layoutHolds_iff]
    exact openLocked_disjoint_iff hok
  · rw [layoutHolds_iff]
    exact openLocked_disjoint_iff hok
  · rw [layoutHolds_iff]
    exact openInner_disjoint_iff hok
  · rw [layoutHolds_iff]
    unfold openWithMvkDeniable at hok
    obtain ⟨disk, hdisk, hok⟩ := except_bind_eq_ok.mp hok
    split at hok
    · cases hok
    next hsame =>
      cases hok
      rw [← not_not.mp hsame]
      exact openInner_disjoint_iff hdisk

/-! ## Recovery from a mirror -/

theorem bufOf_toList (b : Buf 8192) : bufOf b.toList = b := by
  funext i
  have hi : i.val < b.toList.length := by
    rw [Buf.toList_length]
    exact i.isLt
  have hget : b.toList[i.val] = b.get (0 + i.val) := Buf.read_getElem b hi
  show b.toList.getD i.val 0 = b i
  rw [List.getD_eq_getElem?_getD, List.getElem?_eq_getElem hi, Option.getD_some, hget, Nat.zero_add]
  unfold Buf.get
  rw [dif_pos i.isLt]

/-- A vault whose live header is gone, with a mirror next to it. -/
def lostLive (mirror : Buf 8192) : VaultFiles := ⟨[], none, some mirror.toList⟩

theorem openLocked_mirror {e : OpenError} {h : Header} {mvk : Key}
    (hload : loadLockedHeader f = .error e)
    (hmirror : tryUnlockViaMirror f.mirror unlock = some (.ok (h, mvk))) :
    openLockedWithHeaderRecovery f unlock = .ok ⟨f.storage, h, mvk, true⟩ := by
  unfold openLockedWithHeaderRecovery
  rw [hload]
  simp only [hmirror]

/-- The mirror of a well-formed header opens under its key. -/
theorem lostLive_opens {h : Header} (hw : h.WellFormed) (c : Crypto) (mvk : Key)
    (padding : HeaderPadding) :
    openContainerWithMvk c (lostLive (h.toBytes c mvk padding)) mvk
      = .ok ⟨.inline, h, mvk, true⟩ := by
  have hmirror : tryUnlockViaMirror (some (h.toBytes c mvk padding).toList) (verifyWithMvk c mvk)
      = some (.ok (h, mvk)) := by
    unfold tryUnlockViaMirror verifyWithMvk
    simp only
    rw [if_neg (by rw [Buf.toList_length]; exact fun hne => hne rfl), bufOf_toList,
      Header.fromBytes_toBytes hw c mvk padding]
    simp only [liftCrypto, ok_bind, h.verifyHmac_toBytes c mvk padding]
  exact openLocked_mirror (e := .io) rfl hmirror

def noSlots (metadataOffset dataOffset : UInt64) : Header :=
  { Header.sample with
    flags := 0
    keyslots := fun _ => Keyslot.empty
    sepBlobs := fun _ => none
    metadataOffset := metadataOffset
    dataOffset := dataOffset }

def noSlotsRaw (metadataOffset dataOffset : UInt64) : Buf 8192 :=
  (noSlots metadataOffset dataOffset).toBytes plainCrypto sampleMvk ⟨Bytes.zero 3968, fun _ _ => 0⟩

theorem noSlots_wellFormed {metadataOffset dataOffset : UInt64}
    (h : (⟨metadataOffset, 1048576, dataOffset⟩ : Header.Extents).check = .ok ()) :
    (noSlots metadataOffset dataOffset).WellFormed where
  version := Or.inr (Or.inr rfl)
  generation := fun hno => by cases hno
  chunkSize := by
    show ¬ ((4096 : UInt32) < minChunkSize ∨ maxChunkSize < 4096)
    decide
  extents := h
  slots := fun _ => Or.inl rfl
  noBlobs := fun _ => rfl
  blobsFit := by
    show (1 : Nat) + 0 ≤ sepRegionLen
    decide

/-- The mirror of an inline vault says that the metadata starts at 0. -/
theorem mirror_metadata_over_header :
    openContainerWithMvk plainCrypto (lostLive (noSlotsRaw 0 1048576)) sampleMvk
        = .ok ⟨.inline, noSlots 0 1048576, sampleMvk, true⟩
      ∧ ¬ RegionsDisjoint HeaderStorage.inline.headerLen (noSlots 0 1048576).extents := by
  have hcheck : (⟨0, 1048576, 1048576⟩ : Header.Extents).check = .ok () := by rfl
  refine ⟨lostLive_opens (noSlots_wellFormed hcheck) plainCrypto sampleMvk _, fun hd => ?_⟩
  have h := (regionsDisjoint_iff.mp hd).1
  exact absurd h (by decide)

/-- A mirror whose regions are behind the header opens to disjoint ones. -/
theorem opened_regions_disjoint_iff_mirror :
    openContainerWithMvk plainCrypto (lostLive (noSlotsRaw 8192 1056768)) sampleMvk
        = .ok ⟨.inline, noSlots 8192 1056768, sampleMvk, true⟩
      ∧ LayoutHolds HeaderStorage.inline.headerLen (noSlots 8192 1056768).extents
      ∧ LayoutSafe (lostLive (noSlotsRaw 8192 1056768)) := by
  have hcheck : (⟨8192, 1048576, 1056768⟩ : Header.Extents).check = .ok () := by rfl
  have hopen := lostLive_opens (noSlots_wellFormed hcheck) plainCrypto sampleMvk
    ⟨Bytes.zero 3968, fun _ _ => 0⟩
  have hiff := (opened_regions_disjoint_iff plainCrypto (lostLive (noSlotsRaw 8192 1056768))
    ⟨none, none, fun _ => true⟩).2.1 sampleMvk _ hopen
  have hlayout : LayoutHolds HeaderStorage.inline.headerLen (noSlots 8192 1056768).extents := by
    refine layoutHolds_iff.mpr (regionsDisjoint_iff.mpr ?_)
    decide
  exact ⟨hopen, hlayout, hiff.mp hlayout⟩

end Luksbox.Core
