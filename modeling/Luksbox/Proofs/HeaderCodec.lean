import Mathlib.Algebra.BigOperators.Fin
import Mathlib.Algebra.BigOperators.Group.Finset.Basic
import Mathlib.Data.List.FinRange
import Luksbox.Lib.Wp
import Luksbox.Proofs.SlotCodec

/-!
# The header codec is stable on its image

`Header.WellFormed` is what every header that `from_bytes` returns satisfies. The
copies of `to_bytes` follow each other without overlap: the fixed fields below
the slots, the slots below the blob table, the table below the HMAC because its
length is bounded by the region. So each field reads back, and a well-formed
header is parsed from its own bytes as itself.

The blob table is the one part whose layout depends on its content. Its parser
keeps the invariant that its position is the length of what it has read, which
is where the bound of `WellFormed` comes from.
-/

namespace Luksbox.Lib.Buf

variable {n : Nat}

theorem read_sub (b : Buf n) {a m i len : Nat} (h : i + len ≤ m) :
    (b.sub a m).read i len = b.read (a + i) len := by
  refine List.ext_getElem (by rw [read_length, read_length]) fun j h₁ h₂ => ?_
  rw [read_length] at h₁
  have hj : i + j < m := by omega
  rw [read_getElem, read_getElem, Nat.add_assoc]
  unfold get sub
  rw [dif_pos hj]
  rfl

/-- Copies that stay between two places. -/
def Within (lo hi : Nat) (fields : List (Nat × List UInt8)) : Prop :=
  ∀ f ∈ fields, lo ≤ f.1 ∧ f.1 + f.2.length ≤ hi

theorem Within.append {lo hi : Nat} {l m : List (Nat × List UInt8)} (hl : Within lo hi l)
    (hm : Within lo hi m) : Within lo hi (l ++ m) := by
  intro f hf
  rcases List.mem_append.mp hf with hf | hf
  · exact hl f hf
  · exact hm f hf

theorem Within.mono {lo hi lo' hi' : Nat} {l : List (Nat × List UInt8)} (hl : Within lo hi l)
    (hlo : lo' ≤ lo) (hhi : hi ≤ hi') : Within lo' hi' l :=
  fun f hf => ⟨hlo.trans (hl f hf).1, (hl f hf).2.trans hhi⟩

theorem InOrder.append {lo mid hi : Nat} {l m : List (Nat × List UInt8)} (hl : InOrder l)
    (hm : InOrder m) (hwl : Within lo mid l) (hwm : Within mid hi m) : InOrder (l ++ m) := by
  unfold InOrder
  rw [List.pairwise_append]
  exact ⟨hl, hm, fun f hf g hg => (hwl f hf).2.trans (hwm g hg).1⟩

end Luksbox.Lib.Buf

namespace Luksbox.Core

open Lib

/-! ## Primitives to evaluate -/

/-- The first bytes of a sequence, filled up with zeros. -/
def firstBytes (n : Nat) (l : List UInt8) : Bytes n :=
  ⟨(l ++ List.replicate n 0).take n, by simp⟩

/-- Primitives to evaluate: no secrecy, but opening inverts sealing and checks the
key, and Argon2id accepts what the crate accepts. -/
def plainCrypto : Crypto where
  argon2id passphrase salt params :=
    if params.mCostKib ≥ 8 * params.pCost ∧ params.tCost ≥ 1 ∧ params.pCost ≥ 1 then
      some (firstBytes 32 (passphrase ++ salt))
    else none
  hkdf salt ikm _ := firstBytes 32 (ikm ++ salt)
  aeadSeal _ key _ _ pt := some (pt ++ key.val.take 16)
  aeadOpen _ key _ _ ct :=
    if ct.drop (ct.length - 16) = key.val.take 16 then some (ct.take (ct.length - 16)) else none
  hmac key _ := key

/-! ## No panics -/

/-- The computation ends in a result or in an error of the source. -/
def NoPanic {α : Type} (x : Except Error α) : Prop := x ≠ .error .panic

namespace NoPanic

variable {α β : Type}

theorem ok (a : α) : NoPanic (.ok a : Except Error α) := fun h => by cases h

theorem error {e : Error} (h : e ≠ .panic) : NoPanic (.error e : Except Error α) :=
  fun he => h (Except.error.inj he)

theorem bind {x : Except Error α} {f : α → Except Error β} (hx : NoPanic x)
    (hf : ∀ a, NoPanic (f a)) : NoPanic (x >>= f) :=
  except_bind_ne_error hx fun a _ => hf a

theorem ite {p : Prop} [Decidable p] {x y : Except Error α} (hx : NoPanic x) (hy : NoPanic y) :
    NoPanic (if p then x else y) := by
  split
  · exact hx
  · exact hy

end NoPanic

theorem CipherSuite.fromU16_toU16 (suite : CipherSuite) :
    CipherSuite.fromU16 suite.toU16 = .ok suite := by
  cases suite <;> rfl

theorem KdfId.fromU16_toU16 (kdf : KdfId) : KdfId.fromU16 kdf.toU16 = .ok kdf := by
  cases kdf
  rfl

namespace Header

/-! ## The blob table -/

section Blobs

variable {blobs out out' : Fin 8 → Option (List UInt8)}

/-- The length of an entry of the table. -/
def entryLen : Option (List UInt8) → Nat
  | none => 0
  | some blob => 3 + blob.length

def blobsLen (blobs : Fin 8 → Option (List UInt8)) : Nat := ∑ i, entryLen (blobs i)

/-- The entries of some of the slots. -/
def entriesOf (blobs : Fin 8 → Option (List UInt8)) (l : List (Fin 8)) :
    List (Fin 8 × List UInt8) :=
  l.filterMap fun i => (blobs i).map fun blob => (i, blob)

theorem entriesOf_cons_none {l : List (Fin 8)} {i : Fin 8} (h : blobs i = none) :
    entriesOf blobs (i :: l) = entriesOf blobs l := by
  unfold entriesOf
  rw [List.filterMap_cons, h]
  rfl

theorem entriesOf_cons_some {l : List (Fin 8)} {i : Fin 8} {blob : List UInt8}
    (h : blobs i = some blob) : entriesOf blobs (i :: l) = (i, blob) :: entriesOf blobs l := by
  unfold entriesOf
  rw [List.filterMap_cons, h]
  rfl

def lenOf (es : List (Fin 8 × List UInt8)) : Nat := (es.map fun e => 3 + e.2.length).sum

theorem lenOf_cons (e : Fin 8 × List UInt8) (es : List (Fin 8 × List UInt8)) :
    lenOf (e :: es) = 3 + e.2.length + lenOf es := by
  unfold lenOf
  rw [List.map_cons, List.sum_cons]

theorem lenOf_entriesOf (l : List (Fin 8)) :
    lenOf (entriesOf blobs l) = (l.map fun i => entryLen (blobs i)).sum := by
  induction l with
  | nil => rfl
  | cons i rest ih =>
      rw [List.map_cons, List.sum_cons]
      cases h : blobs i with
      | none => rw [entriesOf_cons_none h, ih, entryLen, Nat.zero_add]
      | some blob => rw [entriesOf_cons_some h, lenOf_cons, ih]; rfl

theorem sepRegionRequiredLen_eq (h : Header) :
    h.sepRegionRequiredLen = 1 + blobsLen h.sepBlobs := by
  show 1 + lenOf (entriesOf h.sepBlobs (List.finRange 8)) = _
  rw [lenOf_entriesOf]
  unfold blobsLen
  rw [Fin.sum_univ_def]

theorem blobsLen_update {i : Fin 8} {blob : List UInt8} (h : out i = none) :
    blobsLen (Function.update out i (some blob)) = blobsLen out + (3 + blob.length) := by
  unfold blobsLen
  have hrest : ∑ j ∈ Finset.univ.erase i, entryLen (Function.update out i (some blob) j)
      = ∑ j ∈ Finset.univ.erase i, entryLen (out j) := by
    refine Finset.sum_congr rfl fun j hj => ?_
    rw [Function.update_of_ne (Finset.ne_of_mem_erase hj)]
  rw [← Finset.add_sum_erase _ _ (Finset.mem_univ i),
    ← Finset.add_sum_erase _ (fun j => entryLen (out j)) (Finset.mem_univ i), hrest,
    Function.update_self, h]
  simp only [entryLen]
  omega

theorem parseSepEntries_noPanic (region : Buf 3968) (count p : Nat) :
    NoPanic (parseSepEntries region count p out) := by
  induction count generalizing p out with
  | zero => exact NoPanic.ok _
  | succ count ih =>
      unfold parseSepEntries
      split
      · exact NoPanic.error (by decide)
      next hp =>
        unfold sepRegionLen at hp
        rw [byteAt_ok (by omega), natAt_ok (by omega), ok_bind, ok_bind]
        split
        · split
          · exact NoPanic.error (by decide)
          next hlen =>
            unfold sepRegionLen at hlen
            split
            · exact NoPanic.error (by decide)
            · rw [Buf.slice_eq (by omega)]
              exact ih _
        · exact NoPanic.error (by decide)

/-- The position of the parser is the length of what it has read. -/
theorem parseSepEntries_len {region : Buf 3968} {count p : Nat}
    (h : parseSepEntries region count p out = .ok out') (hp : p = 1 + blobsLen out)
    (hle : p ≤ sepRegionLen) : 1 + blobsLen out' ≤ sepRegionLen := by
  induction count generalizing p out with
  | zero =>
      cases h
      omega
  | succ count ih =>
      unfold parseSepEntries at h
      obtain ⟨hp3, h⟩ := except_ite_eq_ok.mp h
      unfold sepRegionLen at hp3
      rw [byteAt_ok (by omega), natAt_ok (by omega), ok_bind, ok_bind] at h
      split at h
      next hidx =>
        obtain ⟨hlen, h⟩ := except_ite_eq_ok.mp h
        obtain ⟨hfree, h⟩ := except_ite_eq_ok.mp h
        obtain ⟨blob, hblob, h⟩ := except_bind_eq_ok.mp h
        unfold sepRegionLen at hlen
        rw [Buf.slice_eq (by omega)] at hblob
        cases hblob
        refine ih h ?_ (Nat.not_lt.mp hlen)
        rw [blobsLen_update (Option.not_isSome_iff_eq_none.mp hfree), Buf.read_length]
        omega
      · cases h

/-- What the entries leave behind in the table of blobs. -/
def install (out : Fin 8 → Option (List UInt8)) (es : List (Fin 8 × List UInt8)) :
    Fin 8 → Option (List UInt8) :=
  es.foldl (fun out e => Function.update out e.1 (some e.2)) out

theorem install_entriesOf {l : List (Fin 8)} (hl : l.Nodup) (hnone : ∀ i ∈ l, out i = none) :
    install out (entriesOf blobs l) = fun i => if i ∈ l then blobs i else out i := by
  induction l generalizing out with
  | nil => exact funext fun i => (if_neg List.not_mem_nil).symm
  | cons i rest ih =>
      rw [List.nodup_cons] at hl
      have htail : ∀ j ∈ rest, j ≠ i := fun j hj hij => hl.1 (hij ▸ hj)
      cases h : blobs i with
      | none =>
          rw [entriesOf_cons_none h, ih hl.2 fun j hj => hnone j (List.mem_cons_of_mem i hj)]
          funext j
          by_cases hj : j = i
          · rw [hj, if_neg hl.1, if_pos List.mem_cons_self, h, hnone i List.mem_cons_self]
          · simp only [List.mem_cons, hj, false_or]
      | some blob =>
          rw [entriesOf_cons_some h]
          show install (Function.update out i (some blob)) (entriesOf blobs rest) = _
          rw [ih hl.2 fun j hj => by
            rw [Function.update_of_ne (htail j hj)]
            exact hnone j (List.mem_cons_of_mem i hj)]
          funext j
          by_cases hj : j = i
          · rw [hj, if_neg hl.1, if_pos List.mem_cons_self, Function.update_self, h]
          · simp only [List.mem_cons, hj, false_or, Function.update_of_ne hj]

/-- The table of all slots. -/
theorem install_all : install (fun _ => none) (entriesOf blobs (List.finRange 8)) = blobs := by
  rw [install_entriesOf (List.nodup_finRange 8) fun _ _ => rfl]
  exact funext fun i => if_pos (List.mem_finRange i)

theorem entriesOf_fst_sublist (l : List (Fin 8)) :
    List.Sublist ((entriesOf blobs l).map Prod.fst) l := by
  induction l with
  | nil => exact List.Sublist.slnil
  | cons i rest ih =>
      cases h : blobs i with
      | none =>
          rw [entriesOf_cons_none h]
          exact ih.cons i
      | some blob =>
          rw [entriesOf_cons_some h]
          exact ih.cons_cons i

variable {es : List (Fin 8 × List UInt8)} {w p : Nat}

theorem packSep_cons {i : Fin 8} {blob : List UInt8} (h : w + (3 + blob.length) ≤ offHmac) :
    packSep w ((i, blob) :: es)
      = (w, [UInt8.ofNat i.val]) :: (w + 1, leBytes 2 blob.length) :: (w + 3, blob)
          :: packSep (w + (3 + blob.length)) es := by
  rw [packSep, if_neg (Nat.not_lt.mpr h)]

theorem packSep_within (h : w ≤ offHmac) : Buf.Within w offHmac (packSep w es) := by
  induction es generalizing w with
  | nil => exact fun f hf => absurd hf List.not_mem_nil
  | cons e rest ih =>
      unfold packSep
      split
      · exact fun f hf => absurd hf List.not_mem_nil
      next hle =>
        intro f hf
        rcases List.mem_cons.mp hf with rfl | hf
        · exact ⟨Nat.le_refl _, by simp only [List.length_singleton]; omega⟩
        rcases List.mem_cons.mp hf with rfl | hf
        · exact ⟨by simp, by simp only [leBytes_length]; omega⟩
        rcases List.mem_cons.mp hf with rfl | hf
        · exact ⟨by simp, by simp only; omega⟩
        have := ih (Nat.not_lt.mp hle) f hf
        exact ⟨by omega, this.2⟩

theorem packSep_inOrder (h : w ≤ offHmac) : Buf.InOrder (packSep w es) := by
  induction es generalizing w with
  | nil => exact List.Pairwise.nil
  | cons e rest ih =>
      unfold packSep
      split
      · exact List.Pairwise.nil
      next hle =>
        have hrest : Buf.Within _ _ (packSep _ rest) := packSep_within (Nat.not_lt.mp hle)
        have htail := ih (Nat.not_lt.mp hle)
        unfold Buf.InOrder
        simp only [List.pairwise_cons]
        refine ⟨?_, ?_, ?_, htail⟩
        · intro f hf
          rcases List.mem_cons.mp hf with rfl | hf
          · simp
          rcases List.mem_cons.mp hf with rfl | hf
          · simp
          have := (hrest f hf).1
          simp only [List.length_singleton]
          omega
        · intro f hf
          rcases List.mem_cons.mp hf with rfl | hf
          · simp
          have := (hrest f hf).1
          simp only [leBytes_length]
          omega
        · intro f hf
          have := (hrest f hf).1
          omega

/-- The parser reads a packed table back. -/
theorem parseSepEntries_packSep {buf : Buf 8192} {region : Buf 3968}
    (hregion : ∀ i len, i + len ≤ 3968 → region.read i len = buf.read (offSepRegion + i) len)
    (hread : ∀ f ∈ packSep (offSepRegion + p) es, buf.read f.1 f.2.length = f.2)
    (hfit : p + lenOf es ≤ 3968) (hnodup : (es.map Prod.fst).Nodup)
    (hnone : ∀ e ∈ es, out e.1 = none) :
    parseSepEntries region es.length p out = .ok (install out es) := by
  induction es generalizing p out with
  | nil => rfl
  | cons e rest ih =>
      obtain ⟨i, blob⟩ := e
      rw [lenOf_cons] at hfit
      simp only at hfit
      rw [List.map_cons, List.nodup_cons] at hnodup
      rw [packSep_cons (by unfold offSepRegion offHmac; omega)] at hread
      have h₁ := hread _ List.mem_cons_self
      have h₂ := hread _ (List.mem_cons_of_mem _ List.mem_cons_self)
      have h₃ := hread _ (List.mem_cons_of_mem _ (List.mem_cons_of_mem _ List.mem_cons_self))
      have hidx : region.get p = UInt8.ofNat i.val := by
        have h := hregion p 1 (by omega)
        rw [read_one] at h
        exact (List.cons.inj (h.trans h₁)).1
      have hi : (UInt8.ofNat i.val).toNat = i.val := by
        rw [UInt8.toNat_ofNat']
        exact Nat.mod_eq_of_lt (by omega)
      have hlen : leNat (region.read (p + 1) 2) = blob.length := by
        rw [leBytes_length] at h₂
        rw [hregion _ _ (by omega), ← Nat.add_assoc, h₂]
        exact leNat_leBytes_of_lt (by omega)
      have hblob : region.read (p + 3) blob.length = blob := by
        rw [hregion _ _ (by omega), ← Nat.add_assoc]
        exact h₃
      have hidx' : (⟨(UInt8.ofNat i.val).toNat, by rw [hi]; exact i.isLt⟩ : Fin 8) = i :=
        Fin.ext hi
      rw [List.length_cons]
      unfold parseSepEntries sepRegionLen
      rw [if_neg (by omega), byteAt_ok (by omega), natAt_ok (by omega), ok_bind, ok_bind, hidx,
        hlen, dif_pos (by rw [hi]; exact i.isLt), if_neg (by omega), hidx',
        hnone _ List.mem_cons_self, if_neg (by decide), Buf.slice_eq (by omega), hblob]
      refine ih ?_ (by omega) hnodup.2 ?_
      · intro f hf
        rw [Nat.add_assoc, ← Nat.add_assoc offSepRegion] at hf
        exact hread f (List.mem_cons_of_mem _ (List.mem_cons_of_mem _ (List.mem_cons_of_mem _ hf)))
      · intro e he
        have hne : e.1 ≠ i := fun h => hnodup.1 (List.mem_map.mpr ⟨e, he, h⟩)
        rw [Function.update_of_ne hne]
        exact hnone e (List.mem_cons_of_mem _ he)

theorem parseSepRegion_eq (buf : Buf 8192) :
    parseSepRegion buf
      = if (buf.get offSepRegion).toNat > maxKeyslots then .error .invalidField
        else parseSepEntries (buf.sub offSepRegion 3968) (buf.get offSepRegion).toNat 1
          fun _ => none := by
  unfold parseSepRegion
  rw [Buf.slice_eq (by decide), byteAt_ok (by decide)]
  rfl

theorem parseSepRegion_noPanic (buf : Buf 8192) : NoPanic (parseSepRegion buf) := by
  rw [parseSepRegion_eq]
  exact NoPanic.ite (NoPanic.error (by decide)) (parseSepEntries_noPanic _ _ _)

theorem parseSepRegion_len {buf : Buf 8192} (h : parseSepRegion buf = .ok out') :
    1 + blobsLen out' ≤ sepRegionLen := by
  rw [parseSepRegion_eq] at h
  refine parseSepEntries_len (except_ite_eq_ok.mp h).2 ?_ (by decide)
  rfl

end Blobs

/-! ## The slots -/

theorem parseSlots_cons (buf : Buf 8192) (i : Fin 8) (rest : List (Fin 8))
    (slots : Fin 8 → Keyslot) :
    parseSlots buf (i :: rest) slots
      = (Keyslot.fromBytes (buf.sub (offKeyslots + i.val * slotSize) 512) >>= fun slot =>
          parseSlots buf rest (Function.update slots i slot)) := by
  rw [parseSlots, Buf.slice_eq (by unfold offKeyslots slotSize; omega)]
  rfl

theorem parseSlots_noPanic (buf : Buf 8192) (l : List (Fin 8)) (slots : Fin 8 → Keyslot) :
    NoPanic (parseSlots buf l slots) := by
  induction l generalizing slots with
  | nil => exact NoPanic.ok _
  | cons i rest ih =>
      rw [parseSlots_cons]
      exact NoPanic.bind (Keyslot.fromBytes_not_panic _) fun slot => ih _

theorem parseSlots_wellFormed {buf : Buf 8192} {l : List (Fin 8)} {slots slots' : Fin 8 → Keyslot}
    (h : parseSlots buf l slots = .ok slots') (hslots : ∀ i, (slots i).WellFormed) (i : Fin 8) :
    (slots' i).WellFormed := by
  induction l generalizing slots with
  | nil =>
      cases h
      exact hslots i
  | cons j rest ih =>
      rw [parseSlots_cons] at h
      obtain ⟨slot, hslot, h⟩ := except_bind_eq_ok.mp h
      refine ih h fun k => ?_
      by_cases hk : k = j
      · rw [hk, Function.update_self]
        exact Keyslot.fromBytes_wellFormed hslot
      · rw [Function.update_of_ne hk]
        exact hslots k

/-- Every slot of a header that is parsed is parsed. -/
theorem parseSlots_each {buf : Buf 8192} {l : List (Fin 8)} {slots slots' : Fin 8 → Keyslot}
    (h : parseSlots buf l slots = .ok slots') {i : Fin 8} (hi : i ∈ l) :
    ∃ s, Keyslot.fromBytes (buf.sub (offKeyslots + i.val * slotSize) 512) = .ok s := by
  induction l generalizing slots with
  | nil => cases hi
  | cons j rest ih =>
      rw [parseSlots_cons] at h
      obtain ⟨slot, hslot, h⟩ := except_bind_eq_ok.mp h
      rcases List.mem_cons.mp hi with rfl | hi
      · exact ⟨slot, hslot⟩
      · exact ih h hi

theorem parseSlots_eq {buf : Buf 8192} {l : List (Fin 8)} {slots t : Fin 8 → Keyslot}
    (h : ∀ i ∈ l, Keyslot.fromBytes (buf.sub (offKeyslots + i.val * slotSize) 512)
      = .ok (t i)) :
    parseSlots buf l slots = .ok fun i => if i ∈ l then t i else slots i := by
  induction l generalizing slots with
  | nil => exact congrArg _ (funext fun i => (if_neg List.not_mem_nil).symm)
  | cons j rest ih =>
      rw [parseSlots_cons, h j List.mem_cons_self, ok_bind, ih fun i hi => h i (List.mem_cons_of_mem j hi)]
      refine congrArg _ (funext fun i => ?_)
      by_cases hi : i = j
      · simp [hi]
      · simp [List.mem_cons, hi]

/-! ## Well-formed headers -/

def extents (h : Header) : Extents := ⟨h.metadataOffset, h.metadataSize, h.dataOffset⟩

/-- What the parser guarantees. -/
structure WellFormed (h : Header) : Prop where
  version : h.versionMajor = versionMajorV1 ∨ h.versionMajor = versionMajorV2
    ∨ h.versionMajor = versionMajorV3
  generation : h.hasHeaderGeneration = false → h.headerGeneration = 0
  chunkSize : ¬ (h.chunkSize < minChunkSize ∨ maxChunkSize < h.chunkSize)
  extents : h.extents.check = .ok ()
  slots : ∀ i, (h.keyslots i).WellFormed
  noBlobs : h.hasSepRegion = false → h.sepBlobs = fun _ => none
  blobsFit : h.sepRegionRequiredLen ≤ sepRegionLen

theorem versionOfMagic_ok {magic : List UInt8} {v : UInt16} (h : versionOfMagic magic = .ok v) :
    v = versionMajorV1 ∨ v = versionMajorV2 ∨ v = versionMajorV3 := by
  unfold versionOfMagic at h
  split at h
  · exact Or.inl (Except.ok.inj h).symm
  split at h
  · exact Or.inr (Or.inl (Except.ok.inj h).symm)
  split at h
  · exact Or.inr (Or.inr (Except.ok.inj h).symm)
  · cases h

theorem readParams_ok {buf : Buf 8192} {v : UInt16} {suite : CipherSuite} {kdf : KdfId}
    {chunk : UInt32} (h : readParams buf = .ok (v, suite, kdf, chunk)) :
    (v = versionMajorV1 ∨ v = versionMajorV2 ∨ v = versionMajorV3)
      ∧ ¬ (chunk < minChunkSize ∨ maxChunkSize < chunk)
      ∧ chunk = UInt32.ofNat (leNat (buf.read 20 4)) := by
  unfold readParams at h
  obtain ⟨magic, -, h⟩ := except_bind_eq_ok.mp h
  obtain ⟨version, hversion, h⟩ := except_bind_eq_ok.mp h
  obtain ⟨major, -, h⟩ := except_bind_eq_ok.mp h
  obtain ⟨minor, -, h⟩ := except_bind_eq_ok.mp h
  obtain ⟨-, h⟩ := except_ite_eq_ok.mp h
  obtain ⟨size, -, h⟩ := except_bind_eq_ok.mp h
  obtain ⟨-, h⟩ := except_ite_eq_ok.mp h
  obtain ⟨_, -, h⟩ := except_bind_eq_ok.mp h
  obtain ⟨_, -, h⟩ := except_bind_eq_ok.mp h
  obtain ⟨_, -, h⟩ := except_bind_eq_ok.mp h
  obtain ⟨_, -, h⟩ := except_bind_eq_ok.mp h
  obtain ⟨chunk', hchunk, h⟩ := except_bind_eq_ok.mp h
  obtain ⟨hrange, h⟩ := except_ite_eq_ok.mp h
  rw [u32At_ok (by decide)] at hchunk
  cases h
  exact ⟨versionOfMagic_ok hversion, hrange, (Except.ok.inj hchunk).symm⟩

theorem readGeneration_ok {buf : Buf 8192} {v : UInt16} {g : UInt64}
    (h : readGeneration buf v = .ok g) (hv : ¬ v ≥ versionMajorV3) : g = 0 := by
  unfold readGeneration at h
  rw [if_neg hv] at h
  exact (Except.ok.inj h).symm

theorem readSepBlobs_ok {buf : Buf 8192} {flags : UInt32} {blobs : Fin 8 → Option (List UInt8)}
    (h : readSepBlobs buf flags = .ok blobs) :
    (¬ flags &&& flagHasSepRegion ≠ 0 → blobs = fun _ => none)
      ∧ 1 + blobsLen blobs ≤ sepRegionLen := by
  unfold readSepBlobs at h
  split at h
  next hflag => exact ⟨fun hn => absurd hflag hn, parseSepRegion_len h⟩
  next hflag =>
    cases h
    exact ⟨fun _ => rfl, by decide⟩

/-- What the parser has read when it returns a header. -/
structure Parsed (buf : Buf 8192) (h : Header) : Prop where
  params : readParams buf = .ok (h.versionMajor, h.cipherSuite, h.kdf, h.chunkSize)
  generation : readGeneration buf h.versionMajor = .ok h.headerGeneration
  salt : buf.bytes 24 32 = h.headerSalt
  extents : readExtents buf = .ok h.extents
  check : h.extents.check = .ok ()
  slots : parseSlots buf (List.finRange 8) (fun _ => Keyslot.empty) = .ok h.keyslots
  blobs : readSepBlobs buf h.flags = .ok h.sepBlobs

theorem fromBytes_parsed {buf : Buf 8192} {h : Header} (hok : fromBytes buf = .ok h) :
    Parsed buf h := by
  unfold fromBytes at hok
  obtain ⟨⟨version, suite, kdf, chunk⟩, hparams, hok⟩ := except_bind_eq_ok.mp hok
  obtain ⟨flags, -, hok⟩ := except_bind_eq_ok.mp hok
  obtain ⟨generation, hgen, hok⟩ := except_bind_eq_ok.mp hok
  obtain ⟨salt, hsalt, hok⟩ := except_bind_eq_ok.mp hok
  obtain ⟨e, he, hok⟩ := except_bind_eq_ok.mp hok
  obtain ⟨⟨⟩, hcheck, hok⟩ := except_bind_eq_ok.mp hok
  obtain ⟨_, -, hok⟩ := except_bind_eq_ok.mp hok
  obtain ⟨-, hok⟩ := except_ite_eq_ok.mp hok
  obtain ⟨slots, hslots, hok⟩ := except_bind_eq_ok.mp hok
  obtain ⟨blobs, hblobs, hok⟩ := except_bind_eq_ok.mp hok
  rw [bytesAt_ok (by decide)] at hsalt
  rw [← Except.ok.inj hok]
  exact ⟨hparams, hgen, Except.ok.inj hsalt, he, hcheck, hslots, hblobs⟩

theorem fromBytes_wellFormed {buf : Buf 8192} {h : Header} (hok : fromBytes buf = .ok h) :
    h.WellFormed := by
  have hp := fromBytes_parsed hok
  exact {
    version := (readParams_ok hp.params).1
    generation := fun hg => readGeneration_ok hp.generation (of_decide_eq_false hg)
    chunkSize := (readParams_ok hp.params).2.1
    extents := hp.check
    slots := parseSlots_wellFormed hp.slots fun _ => Or.inl rfl
    noBlobs := fun hf => (readSepBlobs_ok hp.blobs).1 (of_decide_eq_false hf)
    blobsFit := by
      rw [sepRegionRequiredLen_eq]
      exact (readSepBlobs_ok hp.blobs).2 }

theorem Extents.check_noPanic (e : Extents) : NoPanic e.check := by
  unfold Extents.check
  exact NoPanic.ite (NoPanic.error (by decide)) (NoPanic.ite (NoPanic.error (by decide))
    (NoPanic.ite (NoPanic.error (by decide)) (NoPanic.ite (NoPanic.error (by decide))
      (NoPanic.ok ()))))

theorem versionOfMagic_noPanic (magic : List UInt8) : NoPanic (versionOfMagic magic) := by
  unfold versionOfMagic
  exact NoPanic.ite (NoPanic.ok _) (NoPanic.ite (NoPanic.ok _) (NoPanic.ite (NoPanic.ok _)
    (NoPanic.error (by decide))))

theorem readParams_noPanic (buf : Buf 8192) : NoPanic (readParams buf) := by
  unfold readParams
  rw [Buf.slice_eq (by decide), u16At_ok (by decide), u16At_ok (by decide), u32At_ok (by decide),
    u16At_ok (by decide), u16At_ok (by decide), u32At_ok (by decide)]
  simp only [orPanic, ok_bind]
  refine NoPanic.bind (versionOfMagic_noPanic _) fun v => ?_
  refine NoPanic.ite (NoPanic.error fun h => by cases h) (NoPanic.ite (NoPanic.error (by decide)) ?_)
  refine NoPanic.bind ?_ fun suite => NoPanic.bind ?_ fun kdf => ?_
  · unfold CipherSuite.fromU16
    exact NoPanic.ite (NoPanic.ok _) (NoPanic.ite (NoPanic.ok _) (NoPanic.ite (NoPanic.ok _)
      (NoPanic.error fun h => by cases h)))
  · unfold KdfId.fromU16
    exact NoPanic.ite (NoPanic.ok _) (NoPanic.error fun h => by cases h)
  · exact NoPanic.ite (NoPanic.error (by decide)) (NoPanic.ok _)

theorem fromBytes_noPanic (buf : Buf 8192) : NoPanic (fromBytes buf) := by
  unfold fromBytes readExtents
  rw [u32At_ok (by decide), bytesAt_ok (by decide), u64At_ok (by decide), u64At_ok (by decide),
    u64At_ok (by decide), u32At_ok (by decide)]
  refine NoPanic.bind (readParams_noPanic buf) fun v => ?_
  refine NoPanic.bind (NoPanic.ok _) fun flags => NoPanic.bind ?_ fun g => ?_
  · unfold readGeneration
    rw [u64At_ok (by decide)]
    exact NoPanic.ite (NoPanic.ok _) (NoPanic.ok _)
  refine NoPanic.bind (NoPanic.ok _) fun salt => NoPanic.bind (NoPanic.ok _) fun e => ?_
  refine NoPanic.bind (Extents.check_noPanic e) fun _ => NoPanic.bind (NoPanic.ok _) fun n => ?_
  refine NoPanic.ite (NoPanic.error (by decide)) ?_
  refine NoPanic.bind (parseSlots_noPanic _ _ _) fun slots => NoPanic.bind ?_ fun blobs =>
    NoPanic.ok _
  unfold readSepBlobs
  exact NoPanic.ite (parseSepRegion_noPanic buf) (NoPanic.ok _)

/-! ## The layout -/

section Layout

variable (c : Crypto) (h : Header) (mvk : Key) (padding : HeaderPadding)

theorem magicOf_length (version : UInt16) : (magicOf version).length = 8 := by
  unfold magicOf
  split
  · rfl
  · split
    · rfl
    · rfl

theorem fixedFields_inOrder : Buf.InOrder h.fixedFields := by
  have hmagic := magicOf_length h.versionMajor
  unfold Buf.InOrder fixedFields
  split
  · simp [hmagic]
  · simp [hmagic]

theorem fixedFields_within : Buf.Within 0 offKeyslots h.fixedFields := by
  have hmagic := magicOf_length h.versionMajor
  unfold Buf.Within fixedFields
  split
  · simp [hmagic, offKeyslots]
  · simp [hmagic, offKeyslots]

theorem slotFields_inOrder : Buf.InOrder (h.slotFields padding) := by
  unfold Buf.InOrder slotFields
  rw [List.pairwise_map]
  refine (List.pairwise_lt_finRange 8).imp fun {i j} hij => ?_
  rw [Buf.toList_length]
  unfold offKeyslots slotSize
  omega

theorem slotFields_within : Buf.Within offKeyslots offSepRegion (h.slotFields padding) := by
  intro f hf
  unfold slotFields at hf
  obtain ⟨i, -, rfl⟩ := List.mem_map.mp hf
  rw [Buf.toList_length]
  unfold offKeyslots offSepRegion slotSize
  omega

theorem sepFields_inOrder : Buf.InOrder h.sepFields := by
  unfold Buf.InOrder sepFields
  split
  · rw [List.pairwise_cons]
    refine ⟨fun f hf => ?_, packSep_inOrder (by decide)⟩
    exact (packSep_within (by decide) f hf).1
  · exact List.Pairwise.nil

/-- The table stays in front of the HMAC. -/
theorem sepFields_within : Buf.Within offSepRegion offHmac h.sepFields := by
  unfold sepFields
  split
  · intro f hf
    rcases List.mem_cons.mp hf with rfl | hf
    · exact ⟨Nat.le_refl _, Nat.le_of_ble_eq_true rfl⟩
    · have := packSep_within (by decide) f hf
      exact ⟨(Nat.le_succ _).trans this.1, this.2⟩
  · exact fun f hf => absurd hf List.not_mem_nil

/-- All copies of `serialize_unauth`. -/
def fields : List (Nat × List UInt8) := h.fixedFields ++ h.slotFields padding ++ h.sepFields

theorem fields_within : Buf.Within 0 offHmac (h.fields padding) :=
  ((h.fixedFields_within.mono (Nat.le_refl _) (by decide)).append
    ((h.slotFields_within padding).mono (by decide) (by decide))).append
    (h.sepFields_within.mono (by decide) (Nat.le_refl _))

theorem fields_inOrder : Buf.InOrder (h.fields padding) := by
  have hbelow : Buf.Within 0 offSepRegion (h.fixedFields ++ h.slotFields padding) :=
    (h.fixedFields_within.mono (Nat.le_refl _) (by decide)).append
      ((h.slotFields_within padding).mono (by decide) (Nat.le_refl _))
  refine Buf.InOrder.append ?_ h.sepFields_inOrder hbelow h.sepFields_within
  exact Buf.InOrder.append h.fixedFields_inOrder (h.slotFields_inOrder padding)
    h.fixedFields_within (h.slotFields_within padding)

/-- A copy of `serialize_unauth` reads back, also behind the HMAC's own copy. -/
theorem read_toBytes {o len : Nat} {v : List UInt8} (hmem : (o, v) ∈ h.fields padding)
    (hlen : v.length = len) : (h.toBytes c mvk padding).read o len = v := by
  have hle := (h.fields_within padding _ hmem).2
  simp only [hlen] at hle
  have hfit : o + len ≤ 8192 := hle.trans (by decide)
  unfold toBytes
  rw [Buf.read_put_outside _ (Or.inl hle) hfit]
  exact Buf.read_putAll _ (h.fields_inOrder padding) hmem hlen hfit

theorem read_fixed {o len : Nat} {v : List UInt8} (hmem : (o, v) ∈ h.fixedFields)
    (hlen : v.length = len) : (h.toBytes c mvk padding).read o len = v :=
  h.read_toBytes c mvk padding (List.mem_append_left _ (List.mem_append_left _ hmem)) hlen

theorem verifyHmac_toBytes : h.verifyHmac c (h.toBytes c mvk padding) mvk = .ok () := by
  unfold verifyHmac
  refine if_pos ?_
  unfold toBytes
  rw [Buf.read_put_self _ (Bytes.length_val _) (by decide),
    Buf.read_put_outside _ (Or.inl (by decide)) (by decide)]

end Layout

/-! ## Round trip -/

section RoundTrip

variable {c : Crypto} {h : Header} {mvk : Key} {padding : HeaderPadding}

theorem versionOfMagic_magicOf (hv : h.versionMajor = versionMajorV1
      ∨ h.versionMajor = versionMajorV2 ∨ h.versionMajor = versionMajorV3) :
    versionOfMagic (magicOf h.versionMajor) = .ok h.versionMajor := by
  rcases hv with hv | hv | hv
  · rw [hv]; rfl
  · rw [hv]; rfl
  · rw [hv]; rfl

theorem readParams_toBytes (hw : h.WellFormed) :
    readParams (h.toBytes c mvk padding)
      = .ok (h.versionMajor, h.cipherSuite, h.kdf, h.chunkSize) := by
  unfold readParams
  rw [Buf.slice_eq (by decide), u16At_ok (by decide), u16At_ok (by decide), u32At_ok (by decide),
    u16At_ok (by decide), u16At_ok (by decide), u32At_ok (by decide),
    h.read_fixed c mvk padding (o := 0) (v := magicOf h.versionMajor)
      (by simp [fixedFields]) (magicOf_length _),
    h.read_fixed c mvk padding (o := 8) (v := leBytes 2 h.versionMajor.toNat)
      (by simp [fixedFields]) (leBytes_length ..),
    h.read_fixed c mvk padding (o := 12) (v := leBytes 4 headerSize)
      (by simp [fixedFields]) (leBytes_length ..),
    h.read_fixed c mvk padding (o := 16) (v := leBytes 2 h.cipherSuite.toU16.toNat)
      (by simp [fixedFields]) (leBytes_length ..),
    h.read_fixed c mvk padding (o := 18) (v := leBytes 2 h.kdf.toU16.toNat)
      (by simp [fixedFields]) (leBytes_length ..),
    h.read_fixed c mvk padding (o := 20) (v := leBytes 4 h.chunkSize.toNat)
      (by simp [fixedFields]) (leBytes_length ..)]
  simp only [orPanic, ok_bind, ofNat_leBytes_u16, ofNat_leBytes_u32,
    versionOfMagic_magicOf hw.version, CipherSuite.fromU16_toU16, KdfId.fromU16_toU16]
  rw [if_neg (fun h => h rfl), if_neg (by decide), if_neg hw.chunkSize]

theorem readExtents_toBytes : readExtents (h.toBytes c mvk padding) = .ok h.extents := by
  unfold readExtents
  rw [u64At_ok (by decide), u64At_ok (by decide), u64At_ok (by decide),
    h.read_fixed c mvk padding (o := 56) (v := leBytes 8 h.metadataOffset.toNat)
      (by simp [fixedFields]) (leBytes_length ..),
    h.read_fixed c mvk padding (o := 64) (v := leBytes 8 h.metadataSize.toNat)
      (by simp [fixedFields]) (leBytes_length ..),
    h.read_fixed c mvk padding (o := 72) (v := leBytes 8 h.dataOffset.toNat)
      (by simp [fixedFields]) (leBytes_length ..)]
  simp only [ok_bind, ofNat_leBytes_u64]
  rfl

theorem readGeneration_toBytes (hw : h.WellFormed) :
    readGeneration (h.toBytes c mvk padding) h.versionMajor = .ok h.headerGeneration := by
  unfold readGeneration
  split
  next hv =>
    have hgen : h.hasHeaderGeneration = true := decide_eq_true hv
    rw [u64At_ok (by decide),
      h.read_fixed c mvk padding (o := 88) (v := leBytes 8 h.headerGeneration.toNat)
        (by simp [fixedFields, hgen]) (leBytes_length ..),
      ofNat_leBytes_u64]
  next hv => rw [hw.generation (decide_eq_false hv)]

/-- The bytes of a slot in the header's. -/
theorem sub_toBytes (c : Crypto) (h : Header) (mvk : Key) (padding : HeaderPadding) (i : Fin 8) :
    (h.toBytes c mvk padding).sub (offKeyslots + i.val * slotSize) 512
      = (h.keyslots i).toBytes (padding.slots i) := by
  have hmem : (offKeyslots + i.val * slotSize, ((h.keyslots i).toBytes (padding.slots i)).toList)
      ∈ h.fields padding := by
    refine List.mem_append_left _ (List.mem_append_right _ ?_)
    exact List.mem_map.mpr ⟨i, List.mem_finRange i, rfl⟩
  exact Buf.sub_eq_of_read (h.read_toBytes c mvk padding hmem (Buf.toList_length _))

theorem parseSlots_toBytes (hw : h.WellFormed) :
    parseSlots (h.toBytes c mvk padding) (List.finRange 8) (fun _ => Keyslot.empty)
      = .ok h.keyslots := by
  rw [parseSlots_eq (t := h.keyslots)]
  · exact congrArg _ (funext fun i => if_pos (List.mem_finRange i))
  · intro i _
    rw [sub_toBytes]
    exact Keyslot.fromBytes_toBytes (hw.slots i) _

theorem sepEntries_fst_nodup : (h.sepEntries.map Prod.fst).Nodup :=
  (entriesOf_fst_sublist _).nodup (List.nodup_finRange 8)

theorem sepEntries_length_le : h.sepEntries.length ≤ 8 := by
  have hsub : List.Sublist (h.sepEntries.map Prod.fst) (List.finRange 8) :=
    entriesOf_fst_sublist _
  have hle := hsub.length_le
  rw [List.length_map, List.length_finRange] at hle
  exact hle

theorem readSepBlobs_toBytes (hw : h.WellFormed) :
    readSepBlobs (h.toBytes c mvk padding) h.flags = .ok h.sepBlobs := by
  unfold readSepBlobs
  split
  next hflag =>
    have hregion : h.hasSepRegion = true := decide_eq_true hflag
    have hsep : h.sepFields = (offSepRegion, [UInt8.ofNat h.sepEntries.length])
        :: packSep (offSepRegion + 1) h.sepEntries := if_pos hregion
    have hcount : ((h.toBytes c mvk padding).get offSepRegion).toNat = h.sepEntries.length := by
      have hread := h.read_toBytes c mvk padding (o := offSepRegion)
        (v := [UInt8.ofNat h.sepEntries.length])
        (List.mem_append_right _ (by rw [hsep]; exact List.mem_cons_self)) rfl
      rw [List.length_singleton, read_one] at hread
      rw [(List.cons.inj hread).1, UInt8.toNat_ofNat']
      have := h.sepEntries_length_le
      exact Nat.mod_eq_of_lt (by omega)
    rw [parseSepRegion_eq, hcount, if_neg (by have := h.sepEntries_length_le; unfold maxKeyslots; omega)]
    have hfit : 1 + lenOf h.sepEntries ≤ 3968 := hw.blobsFit
    have hread : ∀ f ∈ packSep (offSepRegion + 1) h.sepEntries,
        (h.toBytes c mvk padding).read f.1 f.2.length = f.2 := by
      intro f hf
      refine h.read_toBytes c mvk padding (List.mem_append_right _ ?_) rfl
      rw [hsep]
      exact List.mem_cons_of_mem _ hf
    rw [parseSepEntries_packSep (fun i len hle => Buf.read_sub _ hle) hread hfit
      sepEntries_fst_nodup fun _ _ => rfl]
    exact congrArg _ install_all
  next hflag => rw [hw.noBlobs (decide_eq_false hflag)]

theorem salt_toBytes (c : Crypto) (mvk : Key) (padding : HeaderPadding) :
    (h.toBytes c mvk padding).bytes 24 32 = h.headerSalt :=
  Subtype.ext (h.read_fixed c mvk padding (by simp [fixedFields]) h.headerSalt.property)

/-- A well-formed header is parsed from its own bytes as itself. -/
theorem fromBytes_toBytes (hw : h.WellFormed) (c : Crypto) (mvk : Key) (padding : HeaderPadding) :
    fromBytes (h.toBytes c mvk padding) = .ok h := by
  have hextents : h.extents.check = .ok () := hw.extents
  unfold fromBytes
  rw [readParams_toBytes hw, u32At_ok (by decide), bytesAt_ok (by decide), u32At_ok (by decide),
    readExtents_toBytes,
    h.read_fixed c mvk padding (o := 84) (v := leBytes 4 h.flags.toNat)
      (by simp [fixedFields]) (leBytes_length ..),
    h.read_fixed c mvk padding (o := 80) (v := leBytes 4 maxKeyslots)
      (by simp [fixedFields]) (leBytes_length ..),
    salt_toBytes c mvk padding, parseSlots_toBytes hw]
  simp only [ok_bind, ofNat_leBytes_u32, readGeneration_toBytes hw, hextents,
    readSepBlobs_toBytes hw]
  rw [if_neg (by decide)]
  rfl

/-- Every header the parser accepts is written and parsed back unchanged, with a
valid HMAC and with the blob table in front of it; and the parser returns on
every buffer. -/
theorem header_codec_stable (buf : Buf 8192) :
    fromBytes buf ≠ .error .panic
      ∧ ∀ h, fromBytes buf = .ok h →
          h.sepRegionRequiredLen ≤ sepRegionLen
            ∧ Buf.Within offSepRegion offHmac h.sepFields
            ∧ ∀ (c : Crypto) (mvk : Key) (padding : HeaderPadding),
                fromBytes (h.toBytes c mvk padding) = .ok h
                  ∧ h.verifyHmac c (h.toBytes c mvk padding) mvk = .ok () := by
  refine ⟨fromBytes_noPanic buf, fun h hok => ?_⟩
  have hw := fromBytes_wellFormed hok
  refine ⟨hw.blobsFit, h.sepFields_within, fun c mvk padding => ?_⟩
  exact ⟨fromBytes_toBytes hw c mvk padding, h.verifyHmac_toBytes c mvk padding⟩

/-- A header with a Secure Enclave slot and its blob. -/
def sample : Header where
  cipherSuite := .aes256Gcm
  kdf := .argon2id
  chunkSize := 4096
  flags := flagHasSepRegion
  headerSalt := firstBytes 32 [5]
  metadataOffset := 8192
  metadataSize := 1048576
  dataOffset := 1056768
  keyslots := fun i =>
    if i = 2 then { Keyslot.empty with kind := .sepSealed, aadVersion := aadVersionV4 }
    else Keyslot.empty
  sepBlobs := fun i => if i = 2 then some [9, 9, 9] else none
  versionMajor := versionMajorV3
  headerGeneration := 12

theorem sample_wellFormed : sample.WellFormed where
  version := by decide
  generation := by decide
  chunkSize := by decide
  extents := by rfl
  slots := by
    intro i
    show (if i = 2 then _ else _ : Keyslot).WellFormed
    split
    · exact Or.inr ⟨by decide, by decide, by decide, by decide, fun _ => rfl, fun _ _ => rfl⟩
    · exact Or.inl rfl
  noBlobs := by decide
  blobsFit := by decide

theorem header_codec_stable_sample :
    fromBytes (sample.toBytes plainCrypto (firstBytes 32 [1]) ⟨Bytes.zero 3968, fun _ _ => 0⟩)
        = .ok sample
      ∧ fromBytes (sample.toBytes plainCrypto (firstBytes 32 [2]) ⟨firstBytes 3968 [3], fun _ _ => 7⟩)
        = .ok sample := by
  have hparsed := fromBytes_toBytes sample_wellFormed plainCrypto (firstBytes 32 [1])
    ⟨Bytes.zero 3968, fun _ _ => 0⟩
  have hstable := (header_codec_stable _).2 sample hparsed
  exact ⟨hparsed, (hstable.2.2 plainCrypto (firstBytes 32 [2]) ⟨firstBytes 3968 [3], fun _ _ => 7⟩).1⟩

end RoundTrip

end Header

end Luksbox.Core
