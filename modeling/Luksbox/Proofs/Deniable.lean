import Luksbox.Model.Deniable
import Mathlib.Data.List.FinRange
import Mathlib.Order.Fin.Basic

/-!
# Which credentials open a deniable vault

Discovery tries all eight slots with the key of the passphrase and commits to
one of them before the second factor is known: the lowest slot of the wanted
kind, else the lowest that opened. `Carries` says what a header has to be for a
table of installed credentials; every call keeps it, and on a header that
carries a table the outcome of the sweep can be read off the table.
-/

namespace Luksbox

open Lib

/-! ## Payloads -/

@[simp] theorem DeniableKindTag.fromU8_toU8 (k : DeniableKindTag) : fromU8 k.toU8 = some k := by
  cases k <;> decide

theorem DeniableKindTag.toU8_inj {k l : DeniableKindTag} (h : k.toU8 = l.toU8) : k = l := by
  have hk := fromU8_toU8 k
  rw [h, fromU8_toU8] at hk
  injection hk with hk
  exact hk.symm

/-- The bounds `SlotPayload::new` checks. -/
def DeniableMaterial.Fits (m : DeniableMaterial) : Prop :=
  m.credId.length ≤ credIdMaxLen ∧ m.tpmBlob.length ≤ tpmBlobMaxLen ∧
    m.credId.length + SlotPayload.saltLenOf m + m.tpmBlob.length ≤ materialBudget

theorem SlotPayload.new_eq_ok {kind : DeniableKindTag} {m : DeniableMaterial}
    {wrapped : Sealed FactorsKek Nat} {p : SlotPayload} (h : SlotPayload.new kind m wrapped = .ok p) :
    p = ⟨kind, m, wrapped⟩ ∧ m.Fits := by
  unfold SlotPayload.new at h
  split at h
  · cases h
  split at h
  · cases h
  split at h
  · cases h
  next hc ht hb =>
  injection h with h
  exact ⟨h.symm, by omega, by omega, by omega⟩

theorem SlotPayload.saltBytes_length (m : DeniableMaterial) :
    (saltBytes m).length = saltLenOf m := by
  unfold saltBytes saltLenOf
  cases h : m.hmacSalt with
  | none => rfl
  | some salt => simp [salt.property]

theorem SlotPayload.decodeSalt_saltBytes (m : DeniableMaterial) (rest : List UInt8) :
    decodeSalt (saltLenOf m) (saltBytes m ++ rest) = m.hmacSalt := by
  unfold decodeSalt saltBytes saltLenOf
  cases h : m.hmacSalt with
  | none => simp [hmacSaltLen]
  | some salt =>
      have hl : salt.val.length = hmacSaltLen := salt.property
      simp [hl]

theorem SlotPayload.saltLenOf_cases (m : DeniableMaterial) :
    saltLenOf m = 0 ∨ saltLenOf m = hmacSaltLen := by
  unfold saltLenOf
  split
  · exact .inr rfl
  · exact .inl rfl

/-- What `encode` writes, `decode` reads back. -/
theorem SlotPayload.decode_encode {p : SlotPayload} (h : p.material.Fits) :
    decode p.encode = .ok p := by
  obtain ⟨hc, ht, hb⟩ := h
  have hcl : leNat (leBytes 2 p.material.credId.length) = p.material.credId.length :=
    leNat_leBytes_of_lt (by unfold credIdMaxLen at hc; omega)
  have htl : leNat (leBytes 2 p.material.tpmBlob.length) = p.material.tpmBlob.length :=
    leNat_leBytes_of_lt (by unfold tpmBlobMaxLen at ht; omega)
  have hs : (UInt8.ofNat (saltLenOf p.material)).toNat = saltLenOf p.material := by
    rcases saltLenOf_cases p.material with h0 | h0 <;> rw [h0] <;> decide
  have hlen := saltBytes_length p.material
  have hsalt := saltLenOf_cases p.material
  unfold decode encode
  simp only [leBytes] at hcl htl ⊢
  simp only [List.cons_append, List.nil_append, DeniableKindTag.fromU8_toU8, hcl, htl, hs]
  rw [if_neg (by decide), if_neg (by omega), if_neg (not_not_intro hsalt), if_neg (by omega),
    if_neg (by omega), if_neg (by simp [hlen]; omega)]
  have htake : (p.material.credId ++ (saltBytes p.material ++ p.material.tpmBlob)).take
      p.material.credId.length = p.material.credId := by simp
  have hdrop : (p.material.credId ++ (saltBytes p.material ++ p.material.tpmBlob)).drop
      p.material.credId.length = saltBytes p.material ++ p.material.tpmBlob := by simp
  have htail : ((p.material.credId ++ (saltBytes p.material ++ p.material.tpmBlob)).drop
      (p.material.credId.length + saltLenOf p.material)).take p.material.tpmBlob.length =
      p.material.tpmBlob := by
    rw [← List.drop_drop, hdrop, ← hlen]
    simp
  rw [htake, hdrop, htail, decodeSalt_saltBytes]

/-! ## Sealing a slot -/

/-- The envelope of credential `c` with material `m` in slot `idx`. -/
def Envelops (slot : SlotRegion) (idx salt mvk : Nat) (c : DeniableCredential)
    (m : DeniableMaterial) : Prop :=
  ∃ nonce wrapNonce, slot = .envelope ⟨⟨c.passphrase, c.argon2, salt⟩, nonce, (salt, idx),
    SlotPayload.encode ⟨c.kindTag, m,
      ⟨⟨salt, ⟨c.passphrase, c.argon2, salt⟩, c.kindTag, c.secondaries⟩, wrapNonce, (salt, idx),
        mvk⟩⟩⟩

variable {accepts : Argon2idParams → Bool}

theorem sealSlot_eq_ok {idx mvk salt : Nat} {c : DeniableCredential} {m : DeniableMaterial}
    {seed : SlotSeed} {slot : SlotRegion} (h : sealSlot accepts idx c m mvk salt seed = .ok slot) :
    Envelops slot idx salt mvk c m ∧ accepts c.argon2 = true ∧ m.Fits := by
  unfold sealSlot DeniableCredential.deriveEnvelopeKek at h
  by_cases hacc : accepts c.argon2
  · rw [if_pos hacc] at h
    simp only [bind, Except.bind] at h
    split at h
    · cases h
    next p hp =>
    injection h with h
    obtain ⟨rfl, hfits⟩ := SlotPayload.new_eq_ok hp
    exact ⟨⟨_, _, h.symm⟩, hacc, hfits⟩
  · rw [if_neg hacc] at h
    cases h

theorem Envelops.open_iff {slot : SlotRegion} {idx salt mvk : Nat} {c d : DeniableCredential}
    {m : DeniableMaterial} (h : Envelops slot idx salt mvk c m) :
    (slot.openEnvelope ⟨d.passphrase, d.argon2, salt⟩ salt idx).isSome =
      decide (c.passphrase = d.passphrase ∧ c.argon2 = d.argon2) := by
  obtain ⟨nonce, wrapNonce, rfl⟩ := h
  unfold SlotRegion.openEnvelope Sealed.open?
  by_cases heq : c.passphrase = d.passphrase ∧ c.argon2 = d.argon2
  · simp [heq]
  · have : ¬ ((⟨c.passphrase, c.argon2, salt⟩ : EnvelopeKek) = ⟨d.passphrase, d.argon2, salt⟩) := by
      intro he
      injection he with h1 h2
      exact heq ⟨h1, h2⟩
    simp [heq]

theorem Envelops.open_eq {slot : SlotRegion} {idx salt mvk : Nat} {c : DeniableCredential}
    {d : DeniableCredential} {m : DeniableMaterial} (h : Envelops slot idx salt mvk c m)
    (hp : c.passphrase = d.passphrase) (ha : c.argon2 = d.argon2) :
    ∃ wrapNonce, slot.openEnvelope ⟨d.passphrase, d.argon2, salt⟩ salt idx =
      some (SlotPayload.encode ⟨c.kindTag, m,
        ⟨⟨salt, ⟨c.passphrase, c.argon2, salt⟩, c.kindTag, c.secondaries⟩, wrapNonce, (salt, idx),
          mvk⟩⟩) := by
  obtain ⟨nonce, wrapNonce, rfl⟩ := h
  refine ⟨wrapNonce, ?_⟩
  unfold SlotRegion.openEnvelope Sealed.open?
  simp [hp, ha]

/-! ## The sweep -/

theorem reverseSweep_eq (picks : Fin deniableSlotCount → Bool) :
    reverseSweep picks = (List.finRange deniableSlotCount).find? picks := by
  unfold reverseSweep
  rw [List.foldl_reverse]
  generalize List.finRange deniableSlotCount = l
  induction l with
  | nil => rfl
  | cons i rest ih =>
      rw [List.foldr_cons, List.find?_cons, ih]
      cases picks i <;> rfl

theorem reverseSweep_eq_none {picks : Fin deniableSlotCount → Bool} :
    reverseSweep picks = none ↔ ∀ i, picks i = false := by
  rw [reverseSweep_eq, List.find?_eq_none]
  constructor
  · intro h i
    have := h i (List.mem_finRange i)
    simpa using this
  · intro h i _
    simp [h i]

/-- The lowest index that was picked. -/
theorem reverseSweep_eq_some {picks : Fin deniableSlotCount → Bool} {i : Fin deniableSlotCount} :
    reverseSweep picks = some i ↔ picks i = true ∧ ∀ j, j < i → picks j = false := by
  rw [reverseSweep_eq, List.find?_eq_some_iff_append]
  constructor
  · rintro ⟨hi, as, bs, hl, has⟩
    refine ⟨hi, fun j hj => ?_⟩
    have hsorted : (List.finRange deniableSlotCount).Pairwise (· < ·) := List.pairwise_lt_finRange _
    rw [hl] at hsorted
    have hmem : j ∈ as ++ i :: bs := hl ▸ List.mem_finRange j
    rcases List.mem_append.1 hmem with hj' | hj'
    · simpa using has j hj'
    · rcases List.mem_cons.1 hj' with rfl | hj'
      · exact absurd hj (lt_irrefl _)
      · have := (List.pairwise_cons.1 (List.pairwise_append.1 hsorted).2.1).1 j hj'
        exact absurd hj (lt_asymm this)
  · rintro ⟨hi, hlow⟩
    obtain ⟨as, bs, hl⟩ := List.append_of_mem (List.mem_finRange i)
    refine ⟨hi, as, bs, hl, fun j hj => ?_⟩
    have hsorted : (List.finRange deniableSlotCount).Pairwise (· < ·) := List.pairwise_lt_finRange _
    rw [hl] at hsorted
    have hlt : j < i := (List.pairwise_append.1 hsorted).2.2 j hj i List.mem_cons_self
    simp [hlow j hlt]

/-! ## Headers and the credentials they carry -/

/-- What is installed in the eight slots. -/
abbrev Installed := Fin deniableSlotCount → Option (DeniableCredential × DeniableMaterial)

def SlotCarries (accepts : Argon2idParams → Bool) (slot : SlotRegion) (idx salt mvk : Nat) :
    Option (DeniableCredential × DeniableMaterial) → Prop
  | none => ∀ kek s j, slot.openEnvelope kek s j = none
  | some (c, m) => Envelops slot idx salt mvk c m ∧ accepts c.argon2 = true ∧ m.Fits

structure Carries (accepts : Argon2idParams → Bool) (h : DeniableHeader) (salt mvk : Nat)
    (inst : Installed) : Prop where
  saltIs : h.salt = some salt
  slots : ∀ i, SlotCarries accepts (h.slots i) i.val salt mvk (inst i)

/-- The inner header opens under the master key and, on v3, vouches for the
slot table it lies next to. -/
def InnerFits (h : DeniableHeader) (salt mvk : Nat) (inner : DeniableInnerHeader) : Prop :=
  ∃ nonce v3, h.inner = .box ⟨mvk, salt, nonce, inner, v3⟩ ∧
    ∀ v, v3 = some v → v.slotTableDigest = h.slots

/-- Discovery cannot tell two credentials apart that share the passphrase, its
parameters and the kind. -/
def SameDiscovery (c d : DeniableCredential) : Prop :=
  c.passphrase = d.passphrase ∧ c.argon2 = d.argon2 ∧ c.kindTag = d.kindTag

/-- Both phases of an open. -/
def deniableOpen (accepts : Argon2idParams → Bool) (h : DeniableHeader) (c : DeniableCredential)
    (wantKind : Option DeniableKindTag) :
    Except DeniableError (OpenedDeniableEnvelope × OpenedDeniableHeader) := do
  let e ← tryOpenEnvelopeV2 accepts h c wantKind
  let o ← completeOpenV2 e c
  .ok (e, o)

/-- The envelope phase 1 hands over when it settles on slot `i`, installed with
credential `c` and material `m`. -/
def foundIn (h : DeniableHeader) (i : Fin deniableSlotCount) (salt mvk wrapNonce : Nat)
    (c : DeniableCredential) (m : DeniableMaterial) : OpenedDeniableEnvelope where
  envelopeKek := ⟨c.passphrase, c.argon2, salt⟩
  perVaultSalt := salt
  matchedSlotIdx := i
  payload := ⟨c.kindTag, m,
    ⟨⟨salt, ⟨c.passphrase, c.argon2, salt⟩, c.kindTag, c.secondaries⟩, wrapNonce, (salt, i.val),
      mvk⟩⟩
  innerHeaderRegion := h.inner
  slotTableDigest := h.slots

section Opening

variable {h : DeniableHeader} {salt mvk : Nat} {inst : Installed} {c : DeniableCredential}
  {i : Fin deniableSlotCount}

/-- A slot answers to the passphrase of the credential installed in it. -/
theorem Carries.answers_iff (hc : Carries accepts h salt mvk inst) :
    ((h.slots i).openEnvelope ⟨c.passphrase, c.argon2, salt⟩ salt i.val).isSome = true ↔
      ∃ d m, inst i = some (d, m) ∧ d.passphrase = c.passphrase ∧ d.argon2 = c.argon2 := by
  have hs := hc.slots i
  cases hi : inst i with
  | none =>
      rw [hi] at hs
      rw [hs]
      simp
  | some dm =>
      obtain ⟨d, m⟩ := dm
      rw [hi] at hs
      rw [hs.1.open_iff]
      constructor
      · intro hd
        exact ⟨d, m, rfl, by simpa using hd⟩
      · rintro ⟨d', m', heq, hp, ha⟩
        injection heq with heq
        injection heq with hd _
        subst hd
        simp [hp, ha]

theorem Carries.kindByte_eq (hc : Carries accepts h salt mvk inst) {d : DeniableCredential}
    {m : DeniableMaterial} (hi : inst i = some (d, m)) (hp : d.passphrase = c.passphrase)
    (ha : d.argon2 = c.argon2) :
    kindByte ((h.slots i).openEnvelope ⟨c.passphrase, c.argon2, salt⟩ salt i.val) =
      d.kindTag.toU8 := by
  have hs := hc.slots i
  rw [hi] at hs
  obtain ⟨w, hw⟩ := hs.1.open_eq (d := c) hp ha
  rw [hw]
  rfl

/-- Slots of the wanted kind. -/
theorem Carries.wanted_iff (hc : Carries accepts h salt mvk inst) {k : DeniableKindTag} :
    (((h.slots i).openEnvelope ⟨c.passphrase, c.argon2, salt⟩ salt i.val).isSome &&
      decide (kindByte ((h.slots i).openEnvelope ⟨c.passphrase, c.argon2, salt⟩ salt i.val) =
        k.toU8)) = true ↔
      ∃ d m, inst i = some (d, m) ∧ d.passphrase = c.passphrase ∧ d.argon2 = c.argon2 ∧
        d.kindTag = k := by
  rw [Bool.and_eq_true, hc.answers_iff, decide_eq_true_eq]
  constructor
  · rintro ⟨⟨d, m, hi, hp, ha⟩, hk⟩
    rw [hc.kindByte_eq hi hp ha] at hk
    exact ⟨d, m, hi, hp, ha, DeniableKindTag.toU8_inj hk⟩
  · rintro ⟨d, m, hi, hp, ha, rfl⟩
    exact ⟨⟨d, m, hi, hp, ha⟩, hc.kindByte_eq hi hp ha⟩

/-- Phase 1 on a header that carries a table: the slot the two sweeps settle on. -/
theorem Carries.tryOpen_eq (hc : Carries accepts h salt mvk inst) (hacc : accepts c.argon2 = true)
    (want : Option DeniableKindTag) :
    (tryOpenEnvelopeV2 accepts h c want = .error .opaqueUnlockFailed ∧
      ∀ j d m, inst j = some (d, m) → d.passphrase = c.passphrase → d.argon2 = c.argon2 → False) ∨
    ∃ i d m w, inst i = some (d, m) ∧ d.passphrase = c.passphrase ∧ d.argon2 = c.argon2 ∧
      tryOpenEnvelopeV2 accepts h c want = .ok (foundIn h i salt mvk w d m) ∧
      ∀ j e n, inst j = some (e, n) → e.passphrase = c.passphrase → e.argon2 = c.argon2 →
        e.kindTag = want.getD c.kindTag → i ≤ j ∧ d.kindTag = want.getD c.kindTag := by
  unfold tryOpenEnvelopeV2 DeniableCredential.deriveEnvelopeKek
  rw [hc.saltIs]
  simp only
  rw [if_pos hacc]
  simp only
  split
  · next hsel =>
      refine .inl ⟨rfl, fun j d m hj hp ha => ?_⟩
      rw [Option.orElse_eq_or, Option.or_eq_none_iff] at hsel
      have hnone := hsel.2
      have hyes := hc.answers_iff.2 ⟨d, m, hj, hp, ha⟩
      rw [reverseSweep_eq_none.1 hnone j] at hyes
      cases hyes
  next i hsel =>
  right
  -- the slot opened, whichever sweep chose it
  have hans : ((h.slots i).openEnvelope ⟨c.passphrase, c.argon2, salt⟩ salt i.val).isSome = true := by
    cases hk : reverseSweep (fun i : Fin deniableSlotCount =>
        ((h.slots i).openEnvelope ⟨c.passphrase, c.argon2, salt⟩ salt i.val).isSome &&
        decide (kindByte ((h.slots i).openEnvelope ⟨c.passphrase, c.argon2, salt⟩ salt i.val) =
          (want.getD c.kindTag).toU8)) with
    | none =>
        rw [hk] at hsel
        exact (reverseSweep_eq_some.1 hsel).1
    | some i' =>
        rw [hk] at hsel
        injection hsel with hsel
        subst hsel
        exact (Bool.and_eq_true _ _ ▸ (reverseSweep_eq_some.1 hk).1).1
  obtain ⟨d, m, hi, hp, ha⟩ := hc.answers_iff.1 hans
  have hs := hc.slots i
  rw [hi] at hs
  obtain ⟨w, hw⟩ := hs.1.open_eq (d := c) hp ha
  refine ⟨i, d, m, w, hi, hp, ha, ?_, ?_⟩
  · rw [hw]
    simp only
    rw [SlotPayload.decode_encode hs.2.2]
    simp only [foundIn, hp, ha]
    rfl
  · -- any slot of the wanted kind makes the first sweep succeed
    intro j e n hj hep hea hek
    cases hk : reverseSweep (fun i : Fin deniableSlotCount =>
        ((h.slots i).openEnvelope ⟨c.passphrase, c.argon2, salt⟩ salt i.val).isSome &&
        decide (kindByte ((h.slots i).openEnvelope ⟨c.passphrase, c.argon2, salt⟩ salt i.val) =
          (want.getD c.kindTag).toU8)) with
    | none =>
        have hno := reverseSweep_eq_none.1 hk j
        have hyes := hc.wanted_iff.2 ⟨e, n, hj, hep, hea, hek⟩
        rw [hno] at hyes
        cases hyes
    | some i' =>
        rw [hk] at hsel
        injection hsel with hsel
        subst hsel
        obtain ⟨hpick, hlow⟩ := reverseSweep_eq_some.1 hk
        obtain ⟨d', m', hi', -, -, hdk⟩ := hc.wanted_iff.1 hpick
        rw [hi] at hi'
        injection hi' with hi'
        injection hi' with hd _
        refine ⟨?_, hd ▸ hdk⟩
        by_contra hji
        have hno := hlow j (not_le.1 hji)
        have hyes := hc.wanted_iff.2 ⟨e, n, hj, hep, hea, hek⟩
        rw [hno] at hyes
        cases hyes

/-- Phase 2 asks for every factor of the slot phase 1 settled on. -/
theorem completeOpen_iff {inner : DeniableInnerHeader} {d : DeniableCredential}
    {m : DeniableMaterial} {w : Nat} {o : OpenedDeniableHeader} (hin : InnerFits h salt mvk inner)
    (hp : d.passphrase = c.passphrase) (ha : d.argon2 = c.argon2) :
    completeOpenV2 (foundIn h i salt mvk w d m) c = .ok o →
      d = c ∧ o.mvk = mvk ∧ o.inner = inner ∧ o.matchedSlotIdx = i := by
  obtain ⟨nonce, v3, hbox, hv3⟩ := hin
  intro ho
  unfold completeOpenV2 at ho
  simp only [foundIn, DeniableCredential.deriveFactorsKek, Sealed.open?, hp, ha] at ho
  split at ho
  · cases ho
  next hk =>
  split at ho
  · cases ho
  next mvk' hmvk =>
  split at hmvk
  · next hkey =>
      injection hmvk with hmvk
      subst hmvk
      simp only [hbox, DeniableHeader.openInnerRegion, and_self, if_true, bind, Except.bind] at ho
      split at ho
      · cases ho
      injection ho with ho
      subst ho
      have hkey := hkey.1
      injection hkey with _ _ _ hsec
      refine ⟨?_, rfl, rfl, rfl⟩
      cases d
      cases c
      simp only [not_not] at hk
      simp only at hp ha hsec
      subst hp ha hsec hk
      rfl
  · cases hmvk

theorem completeOpen_self {inner : DeniableInnerHeader} {m : DeniableMaterial} {w : Nat}
    (hin : InnerFits h salt mvk inner) :
    ∃ o, completeOpenV2 (foundIn h i salt mvk w c m) c = .ok o ∧ o.mvk = mvk ∧ o.inner = inner := by
  obtain ⟨nonce, v3, hbox, hv3⟩ := hin
  refine ⟨⟨mvk, inner, salt, i, v3⟩, ?_, rfl, rfl⟩
  unfold completeOpenV2
  have hdig : DeniableHeader.checkSlotDigest v3 h.slots = .ok () := by
    cases v3 with
    | none => rfl
    | some v => simp [DeniableHeader.checkSlotDigest, hv3 v rfl]
  simp [foundIn, DeniableCredential.deriveFactorsKek, Sealed.open?, hbox,
    DeniableHeader.openInnerRegion, bind, Except.bind, hdig]

/-- A credential opens the vault to its own material exactly when some slot it
is installed in comes before every slot discovery takes for it. -/
theorem Carries.open_iff (hc : Carries accepts h salt mvk inst) {inner : DeniableInnerHeader}
    (hin : InnerFits h salt mvk inner) {m : DeniableMaterial} (hi : inst i = some (c, m)) :
    (∃ e o, deniableOpen accepts h c (some c.kindTag) = .ok (e, o) ∧ o.mvk = mvk ∧
        o.inner = inner ∧ e.payload.material = m) ↔
      ∃ j, inst j = some (c, m) ∧
        ∀ k, k < j → ∀ d n, inst k = some (d, n) → ¬ SameDiscovery d c := by
  have hacc : accepts c.argon2 = true := by
    have hs := hc.slots i
    rw [hi] at hs
    exact hs.2.1
  rcases hc.tryOpen_eq hacc (some c.kindTag) with ⟨-, hnobody⟩ | ⟨j, d, n, w, hj, hp, ha, hok, hmin⟩
  · exact absurd rfl (hnobody i c m hi rfl)
  have hkind := (hmin i c m hi rfl rfl rfl).2
  constructor
  · rintro ⟨e, o, hopen, -, -, hm⟩
    unfold deniableOpen at hopen
    rw [hok] at hopen
    simp only [bind, Except.bind] at hopen
    split at hopen
    · cases hopen
    next o' ho' =>
    injection hopen with hopen
    injection hopen with he _
    subst he
    obtain ⟨rfl, -, -, -⟩ := completeOpen_iff hin hp ha ho'
    have hm : n = m := hm
    subst hm
    refine ⟨j, hj, fun k hk d' n' hd' hsame => ?_⟩
    have hle := (hmin k d' n' hd' hsame.1 hsame.2.1 hsame.2.2).1
    exact absurd hk (not_lt.2 hle)
  · rintro ⟨j', hj', hfirst⟩
    -- nothing discovery takes for `c` lies below `j'`, so the sweep stops there
    have hle := (hmin j' c m hj' rfl rfl rfl).1
    have heq : j = j' := by
      by_contra hne
      exact hfirst j (lt_of_le_of_ne hle hne) d n hj ⟨hp, ha, hkind⟩
    subst heq
    rw [hj] at hj'
    injection hj' with hj'
    injection hj' with hd hn
    subst hd hn
    obtain ⟨o, ho, homvk, hoinner⟩ := completeOpen_self (i := j) (c := d) (m := n) (w := w) hin
    refine ⟨foundIn h j salt mvk w d n, o, ?_, homvk, hoinner, rfl⟩
    unfold deniableOpen
    rw [hok]
    simp only [bind, Except.bind]
    rw [ho]

/-- Nothing else opens it. -/
theorem Carries.installed_of_open (hc : Carries accepts h salt mvk inst)
    {inner : DeniableInnerHeader} (hin : InnerFits h salt mvk inner)
    {want : Option DeniableKindTag} {r : OpenedDeniableEnvelope × OpenedDeniableHeader}
    (hr : deniableOpen accepts h c want = .ok r) : ∃ i m, inst i = some (c, m) := by
  unfold deniableOpen at hr
  by_cases hacc : accepts c.argon2 = true
  · rcases hc.tryOpen_eq hacc want with ⟨herr, -⟩ | ⟨j, d, n, w, hj, hp, ha, hok, -⟩
    · rw [herr] at hr
      cases hr
    · rw [hok] at hr
      simp only [bind, Except.bind] at hr
      split at hr
      · cases hr
      next o ho =>
      obtain ⟨rfl, -, -, -⟩ := completeOpen_iff hin hp ha ho
      exact ⟨j, n, hj⟩
  · have herr : tryOpenEnvelopeV2 accepts h c want = .error .opaqueUnlockFailed := by
      unfold tryOpenEnvelopeV2 DeniableCredential.deriveEnvelopeKek
      rw [hc.saltIs]
      simp only
      rw [if_neg hacc]
    rw [herr] at hr
    cases hr

end Opening

/-! ## Sessions -/

namespace Installed

/-- Credential `c` with material `m` in slot `idx`. -/
def put (inst : Installed) (idx : Nat) (cm : Option (DeniableCredential × DeniableMaterial)) :
    Installed :=
  if lt : idx < deniableSlotCount then Function.update inst ⟨idx, lt⟩ cm else inst

/-- What is installed after a call that returned `Ok`. -/
def after (inst : Installed) : DeniableOp → Installed
  | .enroll slotIdx credential material _ => inst.put slotIdx (some (credential, material))
  | .clear slotIdx _ => inst.put slotIdx none
  | .rotate _ _ _ _ keep =>
      keep.foldl (fun t k => put t k.slotIdx (some (k.credential, k.material))) fun _ => none
  | .upgrade => inst
  | .persist _ _ => inst

end Installed

/-- A call, with the table of installed credentials it leads to. -/
def DeniableVault.track (accepts : Argon2idParams → Bool) (s : DeniableVault × Installed)
    (op : DeniableOp) : DeniableVault × Installed :=
  ((s.1.exec accepts op).1, if (s.1.exec accepts op).2 then s.2.after op else s.2)

/-- In memory and, when nothing is waiting to be written, on the disk. -/
structure Holding (accepts : Argon2idParams → Bool) (v : DeniableVault) (inst : Installed) :
    Prop where
  bytes : Carries accepts v.den.bytes v.den.salt v.mvk inst
  inner : v.den.v3 = none →
    ∃ nonce, v.den.bytes.inner = .box ⟨v.mvk, v.den.salt, nonce, v.den.inner, none⟩
  disk : v.headerDirty = false →
    v.disk = v.den.bytes ∧ InnerFits v.disk v.den.salt v.mvk v.den.inner

section Sessions

variable {v : DeniableVault} {inst : Installed}

theorem Carries.put {h : DeniableHeader} {salt mvk idx : Nat}
    (hc : Carries accepts h salt mvk inst) (lt : idx < deniableSlotCount) {slot : SlotRegion}
    {cm : Option (DeniableCredential × DeniableMaterial)}
    (hs : SlotCarries accepts slot idx salt mvk cm) :
    Carries accepts { h with slots := Function.update h.slots ⟨idx, lt⟩ slot } salt mvk
      (inst.put idx cm) where
  saltIs := hc.saltIs
  slots := by
    intro i
    unfold Installed.put
    rw [dif_pos lt]
    by_cases hi : i = ⟨idx, lt⟩
    · subst hi
      simp only [Function.update_self]
      exact hs
    · simp only [Function.update_of_ne hi]
      exact hc.slots i

theorem enroll_carries {idx : Nat} {c : DeniableCredential} {m : DeniableMaterial}
    {seed : SlotSeed} {den : DeniableState} (hv : Holding accepts v inst)
    (h : v.den.enroll accepts v.mvk idx c m seed = .ok den) :
    Carries accepts den.bytes den.salt v.mvk (inst.put idx (some (c, m))) ∧
      den.salt = v.den.salt ∧ den.inner = v.den.inner ∧ den.v3 = v.den.v3 ∧
      den.bytes.inner = v.den.bytes.inner := by
  unfold DeniableState.enroll installSlotV2 at h
  split at h
  · cases h
  split at h
  · cases h
  next hlt _ =>
  have hlt : idx < deniableSlotCount := by omega
  rw [dif_pos hlt] at h
  simp only [bind, Except.bind] at h
  cases hseal : sealSlot accepts idx c m v.mvk v.den.salt seed with
  | error e => rw [hseal] at h; cases h
  | ok slot =>
      rw [hseal] at h
      injection h with h
      subst h
      exact ⟨hv.bytes.put hlt (sealSlot_eq_ok hseal), rfl, rfl, rfl, rfl⟩

theorem clear_carries {idx fill : Nat} {den : DeniableState} (hv : Holding accepts v inst)
    (h : v.den.clear idx fill = .ok den) :
    Carries accepts den.bytes den.salt v.mvk (inst.put idx none) ∧
      den.salt = v.den.salt ∧ den.inner = v.den.inner ∧ den.v3 = v.den.v3 ∧
      den.bytes.inner = v.den.bytes.inner := by
  unfold DeniableState.clear clearSlot at h
  split at h
  · cases h
  split at h
  · cases h
  next hlt _ =>
  have hlt : idx < deniableSlotCount := by omega
  rw [dif_pos hlt] at h
  injection h with h
  subst h
  exact ⟨hv.bytes.put hlt fun _ _ _ => rfl, rfl, rfl, rfl, rfl⟩

/-- The rebuilt table carries the kept slots, whatever it carried before. -/
theorem rebuildSlots_carries {mvk salt : Nat} {keep : List KeepSlot} {table table' : SlotTable}
    (hc : Carries accepts ⟨some salt, table, .torn⟩ salt mvk inst)
    (h : rebuildSlots accepts mvk salt keep table = .ok table') :
    Carries accepts ⟨some salt, table', .torn⟩ salt mvk
      (keep.foldl (fun t k => Installed.put t k.slotIdx (some (k.credential, k.material))) inst) := by
  induction keep generalizing table inst with
  | nil =>
      injection h with h
      exact h ▸ hc
  | cons k rest ih =>
      unfold rebuildSlots at h
      split at h
      · next lt =>
          simp only [bind, Except.bind] at h
          cases hseal : sealSlot accepts k.slotIdx k.credential k.material mvk salt k.seed with
          | error e => rw [hseal] at h; cases h
          | ok slot =>
              rw [hseal] at h
              exact ih (hc.put lt (sealSlot_eq_ok hseal)) h
      · cases h

theorem rotate_carries (inst : Installed) {newSalt newMvk nonce : Nat}
    {fill : Fin deniableSlotCount → Nat} {keep : List KeepSlot} {den : DeniableState}
    (h : v.den.rotate accepts newSalt newMvk nonce fill keep = .ok den) :
    Carries accepts den.bytes den.salt newMvk
        (inst.after (.rotate newSalt newMvk nonce fill keep)) ∧
      den.inner = v.den.inner ∧
      den.bytes.inner = .box ⟨newMvk, den.salt, nonce, v.den.inner, none⟩ := by
  unfold DeniableState.rotate rotateMvkV2 at h
  simp only [bind, Except.bind] at h
  cases h1 : checkKeepIndices keep with
  | error e => rw [h1] at h; cases h
  | ok _ =>
      rw [h1] at h
      cases h2 : checkKeepSlots [] keep with
      | error e => rw [h2] at h; cases h
      | ok _ =>
          rw [h2] at h
          simp only at h
          cases h3 : rebuildSlots accepts newMvk newSalt keep fun i => .noise (fill i) with
          | error e => rw [h3] at h; cases h
          | ok table =>
              rw [h3] at h
              injection h with h
              subst h
              have hnone : Carries accepts ⟨some newSalt, fun i => .noise (fill i), .torn⟩ newSalt
                  newMvk fun _ => none := ⟨rfl, fun _ _ _ _ => rfl⟩
              have hc := rebuildSlots_carries hnone h3
              exact ⟨⟨rfl, hc.slots⟩, rfl, rfl⟩

theorem resealed_holds {nonce : Nat} {den : DeniableState} (hv : Holding accepts v inst)
    (h : v.den.resealed v.mvk nonce = .ok den) :
    Carries accepts den.bytes den.salt v.mvk inst ∧
      InnerFits den.bytes den.salt v.mvk den.inner ∧
      (den.v3 = none →
        ∃ nonce, den.bytes.inner = .box ⟨v.mvk, den.salt, nonce, den.inner, none⟩) := by
  unfold DeniableState.resealed at h
  split at h
  · next hv3 =>
      injection h with h
      subst h
      obtain ⟨n, hn⟩ := hv.inner hv3
      exact ⟨hv.bytes, ⟨n, none, hn, nofun⟩, fun _ => ⟨n, hn⟩⟩
  next v3 hv3 =>
  split at h
  · cases h
  next g hg =>
  injection h with h
  subst h
  refine ⟨⟨hv.bytes.saltIs, hv.bytes.slots⟩, ⟨nonce, _, rfl, ?_⟩, nofun⟩
  rintro v hv'
  injection hv' with hv'
  subst hv'
  rfl

/-- One call keeps the table and the bytes together. -/
theorem Holding.track (hv : Holding accepts v inst) (op : DeniableOp) :
    Holding accepts (DeniableVault.track accepts (v, inst) op).1
      (DeniableVault.track accepts (v, inst) op).2 := by
  cases op with
  | enroll slotIdx c m seed =>
      cases h : v.den.enroll accepts v.mvk slotIdx c m seed with
      | error e =>
          simp only [DeniableVault.track, DeniableVault.exec, h, Bool.false_eq_true, if_false]
          exact hv
      | ok den =>
          obtain ⟨hc, hsalt, hin, hv3, hbox⟩ := enroll_carries hv h
          simp only [DeniableVault.track, DeniableVault.exec, h, if_true]
          refine ⟨hc, fun hnone => ?_, nofun⟩
          obtain ⟨n, hn⟩ := hv.inner (hv3 ▸ hnone)
          exact ⟨n, by rw [hbox, hn, hsalt, hin]⟩
  | clear slotIdx fill =>
      cases h : v.den.clear slotIdx fill with
      | error e =>
          simp only [DeniableVault.track, DeniableVault.exec, h, Bool.false_eq_true, if_false]
          exact hv
      | ok den =>
          obtain ⟨hc, hsalt, hin, hv3, hbox⟩ := clear_carries hv h
          simp only [DeniableVault.track, DeniableVault.exec, h, if_true]
          refine ⟨hc, fun hnone => ?_, nofun⟩
          obtain ⟨n, hn⟩ := hv.inner (hv3 ▸ hnone)
          exact ⟨n, by rw [hbox, hn, hsalt, hin]⟩
  | rotate newSalt newMvk nonce fill keep =>
      cases h : v.den.rotate accepts newSalt newMvk nonce fill keep with
      | error e =>
          simp only [DeniableVault.track, DeniableVault.exec, h, Bool.false_eq_true, if_false]
          exact hv
      | ok den =>
          obtain ⟨hc, hin, hbox⟩ := rotate_carries inst h
          simp only [DeniableVault.track, DeniableVault.exec, h, if_true]
          exact ⟨hc, fun _ => ⟨nonce, by rw [hbox, hin]⟩, nofun⟩
  | upgrade =>
      cases h : v.den.v3 with
      | some v3 =>
          simp only [DeniableVault.track, DeniableVault.exec, h, if_true]
          exact hv
      | none =>
          have hup : v.den.upgrade = { v.den with v3 := some ⟨0, fun _ => .noise 0⟩ } := by
            unfold DeniableState.upgrade
            rw [h]
          simp only [DeniableVault.track, DeniableVault.exec, h, if_true, hup]
          exact ⟨hv.bytes, nofun, nofun⟩
  | persist nonce failed =>
      by_cases hd : v.headerDirty = false
      · simp only [DeniableVault.track, DeniableVault.exec, hd, if_true]
        exact hv
      cases h : v.den.resealed v.mvk nonce with
      | error e =>
          simp only [DeniableVault.track, DeniableVault.exec, if_neg hd, h, Bool.false_eq_true,
            if_false]
          exact hv
      | ok den =>
          cases failed with
          | some left =>
              simp only [DeniableVault.track, DeniableVault.exec, if_neg hd, h, Bool.false_eq_true,
                if_false]
              exact ⟨hv.bytes, hv.inner, fun hclean => absurd hclean hd⟩
          | none =>
              obtain ⟨hc, hin, hbox⟩ := resealed_holds hv h
              simp only [DeniableVault.track, DeniableVault.exec, if_neg hd, h, if_true]
              exact ⟨hc, hbox, fun _ => ⟨rfl, hin⟩⟩

theorem Holding.run (hv : Holding accepts v inst) (ops : List DeniableOp) :
    Holding accepts (ops.foldl (DeniableVault.track accepts) (v, inst)).1
      (ops.foldl (DeniableVault.track accepts) (v, inst)).2 := by
  induction ops generalizing v inst with
  | nil => exact hv
  | cons op rest ih => exact ih (hv.track op)

theorem Holding.created {h : DeniableHeader} {salt mvk idx nonce : Nat}
    {inner : DeniableInnerHeader} {c : DeniableCredential} {m : DeniableMaterial}
    {fill : Fin deniableSlotCount → Nat} {seed : SlotSeed}
    (hcreate : createWithCredentialV2 accepts c m idx inner salt mvk nonce fill seed = .ok h) :
    Holding accepts (DeniableVault.created h salt mvk idx inner)
      (Installed.put (fun _ => none) idx (some (c, m))) := by
  unfold createWithCredentialV2 at hcreate
  split at hcreate
  · next lt =>
      simp only [bind, Except.bind] at hcreate
      cases hseal : sealSlot accepts idx c m mvk salt seed with
      | error e => rw [hseal] at hcreate; cases hcreate
      | ok slot =>
          rw [hseal] at hcreate
          injection hcreate with hcreate
          subst hcreate
          have hnone : Carries accepts ⟨some salt, fun i => .noise (fill i), .torn⟩ salt mvk
              fun _ => none := ⟨rfl, fun _ _ _ _ => rfl⟩
          have hslot : SlotCarries accepts slot idx salt mvk (some (c, m)) := sealSlot_eq_ok hseal
          have hc := hnone.put lt hslot
          exact ⟨⟨rfl, hc.slots⟩, fun _ => ⟨nonce, rfl⟩, fun _ => ⟨rfl, nonce, none, rfl, nofun⟩⟩
  · cases hcreate

/-- A persist that returned leaves nothing to write. -/
theorem headerDirty_of_persist {nonce : Nat} {failed : Option DeniableHeader}
    (hok : (v.exec accepts (.persist nonce failed)).2 = true) :
    (v.exec accepts (.persist nonce failed)).1.headerDirty = false := by
  unfold DeniableVault.exec at hok ⊢
  simp only at hok ⊢
  split
  · next hd => exact hd
  next hd =>
  rw [if_neg hd] at hok
  cases h : v.den.resealed v.mvk nonce with
  | error e => rw [h] at hok; cases hok
  | ok den =>
      rw [h] at hok
      cases failed with
      | some left => cases hok
      | none => rfl

end Sessions

/-- After every persist that returns, an installed credential opens the vault,
to the current master key and inner header and to its own material, exactly
when some slot it is installed in comes before every slot whose credential
shares its passphrase, parameters and kind. A credential that is not installed
opens nothing. -/
theorem deniable_credentials_open {h : DeniableHeader} {salt mvk idx nonce : Nat}
    {inner : DeniableInnerHeader} {c₀ : DeniableCredential} {m₀ : DeniableMaterial}
    {fill : Fin deniableSlotCount → Nat} {seed : SlotSeed}
    (hcreate : createWithCredentialV2 accepts c₀ m₀ idx inner salt mvk nonce fill seed = .ok h)
    (ops : List DeniableOp) (nonce' : Nat) (failed : Option DeniableHeader)
    (v : DeniableVault) (inst : Installed)
    (hrun : ops.foldl (DeniableVault.track accepts)
      (DeniableVault.created h salt mvk idx inner,
        Installed.put (fun _ => none) idx (some (c₀, m₀))) = (v, inst))
    (hok : (v.exec accepts (.persist nonce' failed)).2 = true) :
    (∀ i c m, inst i = some (c, m) →
      ((∃ e o, deniableOpen accepts (v.exec accepts (.persist nonce' failed)).1.disk c
            (some c.kindTag) = .ok (e, o) ∧
          o.mvk = (v.exec accepts (.persist nonce' failed)).1.mvk ∧
          o.inner = (v.exec accepts (.persist nonce' failed)).1.den.inner ∧
          e.payload.material = m) ↔
        ∃ j, inst j = some (c, m) ∧
          ∀ k, k < j → ∀ d n, inst k = some (d, n) → ¬ SameDiscovery d c)) ∧
    ∀ c want r, deniableOpen accepts (v.exec accepts (.persist nonce' failed)).1.disk c want =
      .ok r → ∃ i m, inst i = some (c, m) := by
  have hv : Holding accepts v inst := by
    have hall := (Holding.created hcreate).run ops
    rw [hrun] at hall
    exact hall
  have hp := hv.track (.persist nonce' failed)
  simp only [DeniableVault.track, hok, if_true] at hp
  obtain ⟨hdisk, hin⟩ := hp.disk (headerDirty_of_persist hok)
  have hc := hp.bytes
  rw [← hdisk] at hc
  exact ⟨fun i c m hi => hc.open_iff hin hi, fun c want r hr => hc.installed_of_open hin hr⟩

/-! ## Two security keys behind one passphrase -/

def adminPhrase : DeniableCredential := ⟨.passphrase, [97], ⟨65536, 3, 1⟩, []⟩

/-- A FIDO2 key whose `hmac-secret` output is 32 times `b`. -/
def securityKey (b : UInt8) : DeniableCredential :=
  ⟨.fido2Passphrase, [112], ⟨65536, 3, 1⟩, [List.replicate 32 b]⟩

def keyMaterial (b : UInt8) : DeniableMaterial where
  credId := [b]
  hmacSalt := some ⟨List.replicate 32 b, List.length_replicate⟩
  tpmBlob := []

/-- A new vault with the administrator's passphrase in slot 0. -/
def adminHeader : DeniableHeader :=
  ⟨some 7, Function.update (fun i => .noise i.val) 0
    (.envelope ⟨⟨[97], ⟨65536, 3, 1⟩, 7⟩, 2, (7, 0), SlotPayload.encode ⟨.passphrase, ⟨[], none, []⟩,
      ⟨⟨7, ⟨[97], ⟨65536, 3, 1⟩, 7⟩, .passphrase, []⟩, 1, (7, 0), 5⟩⟩⟩),
    .box ⟨5, 7, 3, default, none⟩⟩

def twoKeys : DeniableVault × Installed :=
  [.enroll 1 (securityKey 1) (keyMaterial 1) ⟨11, 12⟩,
    .enroll 2 (securityKey 2) (keyMaterial 2) ⟨21, 22⟩].foldl
      (DeniableVault.track fun _ => true)
      (DeniableVault.created adminHeader 7 5 0 default,
        Installed.put (fun _ => none) 0 (some (adminPhrase, ⟨[], none, []⟩)))

/-- The second key is installed and the persist returns, but discovery settles
on the first key's slot and the second key opens nothing. -/
theorem second_security_key_locked_out :
    createWithCredentialV2 (fun _ => true) adminPhrase ⟨[], none, []⟩ 0 default 7 5 3
        (fun i => i.val) ⟨1, 2⟩ = .ok adminHeader ∧
      twoKeys.2 2 = some (securityKey 2, keyMaterial 2) ∧
      (twoKeys.1.exec (fun _ => true) (.persist 4 none)).2 = true ∧
      (deniableOpen (fun _ => true) (twoKeys.1.exec (fun _ => true) (.persist 4 none)).1.disk
        (securityKey 2) (some .fido2Passphrase)).isOk = false := by
  refine ⟨rfl, rfl, rfl, ?_⟩
  decide +kernel

/-- The first key is not shadowed. -/
theorem first_security_key_opens :
    ∃ e o, deniableOpen (fun _ => true) (twoKeys.1.exec (fun _ => true) (.persist 4 none)).1.disk
        (securityKey 1) (some (securityKey 1).kindTag) = .ok (e, o) ∧
      o.mvk = (twoKeys.1.exec (fun _ => true) (.persist 4 none)).1.mvk ∧
      o.inner = (twoKeys.1.exec (fun _ => true) (.persist 4 none)).1.den.inner ∧
      e.payload.material = keyMaterial 1 := by
  have hcreate : createWithCredentialV2 (fun _ => true) adminPhrase ⟨[], none, []⟩ 0 default 7 5 3
      (fun i => i.val) ⟨1, 2⟩ = .ok adminHeader := rfl
  have hall := deniable_credentials_open hcreate
    [.enroll 1 (securityKey 1) (keyMaterial 1) ⟨11, 12⟩,
      .enroll 2 (securityKey 2) (keyMaterial 2) ⟨21, 22⟩] 4 none twoKeys.1 twoKeys.2 rfl rfl
  refine (hall.1 1 (securityKey 1) (keyMaterial 1) rfl).2 ⟨1, rfl, fun k hk d n hd hsame => ?_⟩
  have hlt : k.val < 1 := hk
  have hk : k = 0 := Fin.ext (by show k.val = 0; omega)
  subst hk
  have hd : some (adminPhrase, (⟨[], none, []⟩ : DeniableMaterial)) = some (d, n) := hd
  injection hd with hd
  injection hd with hd _
  subst hd
  exact absurd hsame.2.2 (by decide)

end Luksbox
