import Luksbox.Model.HeaderCodec

/-!
# The keyslot codec is stable on its image

`readFields_spec` says once what the parser does with a slot that is not empty:
it accepts exactly the buffers of `Accepts`, returns `fieldsOf` of them, and an
error that is not a panic otherwise. `Keyslot.WellFormed` is what every parsed
slot satisfies, and a slot that satisfies it comes back from its bytes whatever
the padding was (`fromBytes_toBytes`).
-/

namespace Luksbox.Core

open Lib

theorem ok_bind {ε α β : Type} (a : α) (f : α → Except ε β) :
    ((Except.ok a : Except ε α) >>= f) = f a := rfl

/-! ## Reading in range -/

section Reading

variable {n : Nat} {b : Buf n}

theorem read_one (b : Buf n) (i : Nat) : b.read i 1 = [b.get i] := rfl

theorem byteAt_ok {i : Nat} (h : i + 1 ≤ n) : byteAt b i = .ok (b.get i) := by
  unfold byteAt
  rw [Buf.slice_eq h]
  rfl

theorem natAt_ok {i len : Nat} (h : i + len ≤ n) :
    natAt b i len = .ok (leNat (b.read i len)) := by
  unfold natAt
  rw [Buf.slice_eq h]
  rfl

theorem u16At_ok {i : Nat} (h : i + 2 ≤ n) :
    u16At b i = .ok (UInt16.ofNat (leNat (b.read i 2))) := by
  unfold u16At
  rw [natAt_ok h]
  rfl

theorem u32At_ok {i : Nat} (h : i + 4 ≤ n) :
    u32At b i = .ok (UInt32.ofNat (leNat (b.read i 4))) := by
  unfold u32At
  rw [natAt_ok h]
  rfl

theorem u64At_ok {i : Nat} (h : i + 8 ≤ n) :
    u64At b i = .ok (UInt64.ofNat (leNat (b.read i 8))) := by
  unfold u64At
  rw [natAt_ok h]
  rfl

theorem bytesAt_ok {i len : Nat} (h : i + len ≤ n) : bytesAt b i len = .ok (b.bytes i len) := by
  unfold bytesAt
  rw [Buf.slice_eq h]
  rfl

theorem ofNat_leBytes_u16 (v : UInt16) : UInt16.ofNat (leNat (leBytes 2 v.toNat)) = v := by
  rw [leNat_leBytes_of_lt (UInt16.toNat_lt v), UInt16.ofNat_toNat]

theorem ofNat_leBytes_u32 (v : UInt32) : UInt32.ofNat (leNat (leBytes 4 v.toNat)) = v := by
  rw [leNat_leBytes_of_lt (UInt32.toNat_lt v), UInt32.ofNat_toNat]

theorem ofNat_leBytes_u64 (v : UInt64) : UInt64.ofNat (leNat (leBytes 8 v.toNat)) = v := by
  rw [leNat_leBytes_of_lt (UInt64.toNat_lt v), UInt64.ofNat_toNat]

end Reading

theorem SlotKind.fromU8_toU8 (kind : SlotKind) : SlotKind.fromU8 kind.toU8 = .ok kind := by
  cases kind <;> rfl

theorem SlotKind.fromU8_not_panic (v : UInt8) : SlotKind.fromU8 v ≠ .error .panic := by
  unfold SlotKind.fromU8
  split
  · exact fun h => by cases h
  · exact fun h => by cases h

namespace Keyslot

/-! ## What the parser accepts -/

section Parser

variable (b : Buf 512) (kind : SlotKind)

def credLenOf : Nat := leNat (b.read 124 2)

def saltLenOf : Nat := leNat (b.read 126 2)

def paramsOf : Argon2idParams where
  mCostKib := UInt32.ofNat (leNat (b.read 20 4))
  tCost := UInt32.ofNat (leNat (b.read 24 4))
  pCost := UInt32.ofNat (leNat (b.read 28 4))

/-- What is kept of the variable region. -/
def variableOf : List UInt8 × Bytes 32 :=
  if kind.hasInlineHmacSalt then
    (b.read 128 (credLenOf b), b.bytes (slotLayout (b.get 1)).2 32)
  else if kind.holdsTpmBlob then (b.read 128 (credLenOf b), Bytes.zero 32)
  else ([], Bytes.zero 32)

def fieldsOf : Keyslot where
  kind := kind
  aadVersion := b.get 1
  uuid := b.bytes 4 16
  kdfParams := paramsOf b
  kdfSalt := b.bytes 32 32
  aeadNonce := b.bytes 64 12
  wrappedCt := b.bytes 76 32
  wrappedTag := b.bytes 108 16
  fido2CredId := (variableOf b kind).1
  fido2HmacSalt := (variableOf b kind).2

/-- The two lengths are the ones the kind has. -/
def LengthsFit : Prop :=
  if kind.hasInlineHmacSalt then saltLenOf b = fido2HmacSaltLen
  else if kind.holdsTpmBlob then saltLenOf b = 0
  else if kind.isSep then saltLenOf b = 0 ∧ credLenOf b = 0
  else True

structure Accepts : Prop where
  version : b.get 1 ≤ aadVersionV4
  cred : credLenOf b ≤ (slotLayout (b.get 1)).1
  params : kind.runsArgon2 = true → (paramsOf b).isSaneForDisk = true
  lengths : LengthsFit b kind

end Parser

variable {b : Buf 512} {kind : SlotKind}

theorem slotLayout_fits (v : UInt8) :
    128 + (slotLayout v).1 ≤ (slotLayout v).2 ∧ (slotLayout v).2 + 32 ≤ 512 := by
  unfold slotLayout
  split
  · exact ⟨by decide, by decide⟩
  · exact ⟨by decide, by decide⟩

theorem readVariable_spec (kind : SlotKind) (hcred : credLenOf b ≤ (slotLayout (b.get 1)).1) :
    readVariable b kind (credLenOf b) (saltLenOf b) (slotLayout (b.get 1)).2 = .ok (variableOf b kind)
        ∧ LengthsFit b kind
      ∨ readVariable b kind (credLenOf b) (saltLenOf b) (slotLayout (b.get 1)).2
          = .error .invalidField ∧ ¬ LengthsFit b kind := by
  have hfits := slotLayout_fits (b.get 1)
  unfold readVariable variableOf LengthsFit
  split
  · split
    next h => exact Or.inr ⟨rfl, h⟩
    next h =>
      rw [Buf.slice_eq (by omega), bytesAt_ok hfits.2]
      exact Or.inl ⟨rfl, not_not.mp h⟩
  · split
    · split
      next h => exact Or.inr ⟨rfl, h⟩
      next h =>
        rw [Buf.slice_eq (by omega)]
        exact Or.inl ⟨rfl, not_not.mp h⟩
    · split
      · split
        next h => exact Or.inr ⟨rfl, by omega⟩
        next h => exact Or.inl ⟨rfl, by omega⟩
      · exact Or.inl ⟨rfl, trivial⟩

theorem readFields_spec (b : Buf 512) (kind : SlotKind) :
    readFields b kind = .ok (fieldsOf b kind) ∧ Accepts b kind
      ∨ ∃ e, readFields b kind = .error e ∧ e ≠ .panic ∧ ¬ Accepts b kind := by
  unfold readFields
  rw [byteAt_ok (by decide), bytesAt_ok (by decide), u32At_ok (by decide), u32At_ok (by decide),
    u32At_ok (by decide), bytesAt_ok (by decide), bytesAt_ok (by decide), bytesAt_ok (by decide),
    bytesAt_ok (by decide), natAt_ok (by decide), natAt_ok (by decide)]
  simp only [ok_bind]
  split
  next h =>
    exact Or.inr ⟨_, rfl, by decide, fun ha => absurd ha.version (UInt8.not_le.mpr h)⟩
  next hversion =>
    split
    next h =>
      refine Or.inr ⟨_, rfl, ?_, fun ha => absurd ha.cred (Nat.not_le.mpr h)⟩
      exact fun h => by cases h
    next hcred =>
      split
      next h => exact Or.inr ⟨_, rfl, by decide, fun ha => h.2 (ha.params h.1)⟩
      next hparams =>
        rcases readVariable_spec kind (Nat.not_lt.mp hcred) with ⟨hv, hl⟩ | ⟨hv, hl⟩
        · left
          refine ⟨?_, ⟨UInt8.not_lt.mp hversion, Nat.not_lt.mp hcred, ?_, hl⟩⟩
          · show (readVariable b kind (credLenOf b) (saltLenOf b) _ >>= _) = _
            rw [hv]
            rfl
          · intro hruns
            by_contra hsane
            exact hparams ⟨hruns, hsane⟩
        · refine Or.inr ⟨.invalidField, ?_, by decide, fun ha => hl ha.lengths⟩
          show (readVariable b kind (credLenOf b) (saltLenOf b) _ >>= _) = _
          rw [hv]
          rfl

theorem fromBytes_eq (b : Buf 512) :
    fromBytes b = (SlotKind.fromU8 (b.get 0) >>= fun kind =>
      if kind = .empty then .ok empty else readFields b kind) := by
  unfold fromBytes
  rw [byteAt_ok (by decide)]
  rfl

/-- The parser returns, for every buffer. -/
theorem fromBytes_not_panic (b : Buf 512) : fromBytes b ≠ .error .panic := by
  rw [fromBytes_eq]
  cases hk : SlotKind.fromU8 (b.get 0) with
  | error e =>
      intro h
      cases h
      exact SlotKind.fromU8_not_panic _ hk
  | ok kind =>
      rw [ok_bind]
      split
      · exact fun h => by cases h
      · rcases readFields_spec b kind with ⟨h, -⟩ | ⟨e, h, he, -⟩
        · rw [h]
          exact fun h => by cases h
        · rw [h]
          exact fun h => he (Except.error.inj h)

/-! ## Well-formed slots -/

/-- What the parser guarantees of a slot that is not empty. -/
structure Sound (s : Keyslot) : Prop where
  kind : s.kind ≠ .empty
  version : s.aadVersion ≤ aadVersionV4
  cred : s.fido2CredId.length ≤ (slotLayout s.aadVersion).1
  params : s.kind.runsArgon2 = true → s.kdfParams.isSaneForDisk = true
  salt : s.kind.hasInlineHmacSalt = false → s.fido2HmacSalt = Bytes.zero 32
  noCred : s.kind.hasInlineHmacSalt = false → s.kind.holdsTpmBlob = false → s.fido2CredId = []

/-- An empty slot has no fields of its own. -/
def WellFormed (s : Keyslot) : Prop := s = empty ∨ s.Sound

theorem Accepts.sound (ha : Accepts b kind) (hkind : kind ≠ .empty) : (fieldsOf b kind).Sound where
  kind := hkind
  version := ha.version
  cred := by
    show (variableOf b kind).1.length ≤ _
    unfold variableOf
    split
    · exact (Buf.read_length ..).trans_le ha.cred
    · split
      · exact (Buf.read_length ..).trans_le ha.cred
      · exact Nat.zero_le _
  params := ha.params
  salt := by
    intro h
    show (variableOf b kind).2 = _
    unfold variableOf
    rw [if_neg (by rw [show kind.hasInlineHmacSalt = false from h]; decide)]
    split
    · rfl
    · rfl
  noCred := by
    intro h h'
    show (variableOf b kind).1 = _
    unfold variableOf
    rw [show kind.hasInlineHmacSalt = false from h, show kind.holdsTpmBlob = false from h']
    rfl

theorem fromBytes_wellFormed {s : Keyslot} (h : fromBytes b = .ok s) : s.WellFormed := by
  rw [fromBytes_eq] at h
  cases hk : SlotKind.fromU8 (b.get 0) with
  | error e =>
      rw [hk] at h
      cases h
  | ok kind =>
      rw [hk, ok_bind] at h
      split at h
      next => exact Or.inl (Except.ok.inj h).symm
      next hkind =>
        rcases readFields_spec b kind with ⟨hok, ha⟩ | ⟨e, he, -⟩
        · rw [hok] at h
          cases h
          exact Or.inr (ha.sound hkind)
        · rw [he] at h
          cases h

/-! ## Round trip -/

/-- The copies of `to_bytes`. -/
def fields (s : Keyslot) : List (Nat × List UInt8) :=
  s.aadRegion ++ [(76, s.wrappedCt.val), (108, s.wrappedTag.val)] ++ s.variableRegion

theorem cred_length_le (s : Keyslot) : s.cred.length ≤ (slotLayout s.aadVersion).1 := by
  unfold cred
  exact List.length_take_le _ _

theorem fields_inOrder (s : Keyslot) : Buf.InOrder s.fields := by
  have hcred := s.cred_length_le
  have hfits := slotLayout_fits s.aadVersion
  unfold Buf.InOrder fields aadRegion variableRegion
  split
  · simp
    omega
  · simp

variable {s : Keyslot}

theorem Sound.cred_eq (hs : s.Sound) : s.cred = s.fido2CredId :=
  List.take_of_length_le hs.cred

section RoundTrip

variable (s : Keyslot) (padding : Buf 512)

/-- A copy of `to_bytes` reads back. -/
theorem read_fields {o len : Nat} {v : List UInt8} (hmem : (o, v) ∈ s.fields)
    (hlen : v.length = len) (hfit : o + len ≤ 512) :
    (padding.putAll s.fields).read o len = v :=
  padding.read_putAll s.fields_inOrder hmem hlen hfit

theorem get_fields {o : Nat} {v : UInt8} (hmem : (o, [v]) ∈ s.fields) (hfit : o + 1 ≤ 512) :
    (padding.putAll s.fields).get o = v := by
  have h := s.read_fields padding hmem rfl hfit
  rw [List.length_singleton, read_one] at h
  exact (List.cons.inj h).1

theorem bytes_fields {o len : Nat} {x : Bytes len} (hmem : (o, x.val) ∈ s.fields)
    (hfit : o + len ≤ 512) : (padding.putAll s.fields).bytes o len = x :=
  padding.bytes_putAll s.fields_inOrder hmem hfit

theorem get_kind : (padding.putAll s.fields).get 0 = s.kind.toU8 :=
  s.get_fields padding (by simp [fields, aadRegion]) (by decide)

theorem get_version : (padding.putAll s.fields).get 1 = s.aadVersion :=
  s.get_fields padding (by simp [fields, aadRegion]) (by decide)

theorem paramsOf_fields : paramsOf (padding.putAll s.fields) = s.kdfParams := by
  unfold paramsOf
  rw [s.read_fields padding (o := 20) (v := leBytes 4 s.kdfParams.mCostKib.toNat)
      (by simp [fields, aadRegion]) (leBytes_length ..) (by decide),
    s.read_fields padding (o := 24) (v := leBytes 4 s.kdfParams.tCost.toNat)
      (by simp [fields, aadRegion]) (leBytes_length ..) (by decide),
    s.read_fields padding (o := 28) (v := leBytes 4 s.kdfParams.pCost.toNat)
      (by simp [fields, aadRegion]) (leBytes_length ..) (by decide)]
  simp only [ofNat_leBytes_u32]

theorem credLenOf_fields : credLenOf (padding.putAll s.fields) = s.cred.length := by
  have hcred := s.cred_length_le
  have hfits := slotLayout_fits s.aadVersion
  unfold credLenOf
  rw [s.read_fields padding (v := leBytes 2 s.cred.length)
    (by simp [fields, aadRegion, variableRegion]) (leBytes_length ..) (by decide)]
  exact leNat_leBytes_of_lt (by omega)

theorem saltLenOf_fields : saltLenOf (padding.putAll s.fields) = s.saltLen := by
  unfold saltLenOf
  rw [s.read_fields padding (v := leBytes 2 s.saltLen)
    (by simp [fields, aadRegion, variableRegion]) (leBytes_length ..) (by decide)]
  refine leNat_leBytes_of_lt ?_
  unfold saltLen
  split
  · decide
  · decide

theorem read_cred :
    (padding.putAll s.fields).read 128 s.cred.length = s.cred := by
  have hcred := s.cred_length_le
  have hfits := slotLayout_fits s.aadVersion
  exact s.read_fields padding (by simp [fields, aadRegion, variableRegion]) rfl (by omega)

theorem bytes_salt (h : s.kind.hasInlineHmacSalt = true) :
    (padding.putAll s.fields).bytes (slotLayout s.aadVersion).2 32 = s.fido2HmacSalt := by
  refine s.bytes_fields padding ?_ (slotLayout_fits _).2
  simp [fields, variableRegion, saltLen, h, fido2HmacSaltLen]

end RoundTrip

variable {padding : Buf 512}

theorem Sound.variableOf_fields (hs : s.Sound) :
    variableOf (padding.putAll s.fields) s.kind = (s.fido2CredId, s.fido2HmacSalt) := by
  unfold variableOf
  rw [credLenOf_fields, get_version, read_cred, hs.cred_eq]
  split
  next h => rw [bytes_salt s padding h]
  next h =>
    have hinline : s.kind.hasInlineHmacSalt = false := Bool.eq_false_iff.mpr h
    rw [hs.salt hinline]
    split
    · rfl
    next h' => rw [hs.noCred hinline (Bool.eq_false_iff.mpr h')]

theorem Sound.fieldsOf_fields (hs : s.Sound) :
    fieldsOf (padding.putAll s.fields) s.kind = s := by
  unfold fieldsOf
  rw [hs.variableOf_fields, paramsOf_fields, get_version,
    bytes_fields s padding (x := s.uuid) (by simp [fields, aadRegion]) (by decide),
    bytes_fields s padding (x := s.kdfSalt) (by simp [fields, aadRegion]) (by decide),
    bytes_fields s padding (x := s.aeadNonce) (by simp [fields, aadRegion]) (by decide),
    bytes_fields s padding (x := s.wrappedCt) (by simp [fields]) (by decide),
    bytes_fields s padding (x := s.wrappedTag) (by simp [fields]) (by decide)]

theorem Sound.accepts (hs : s.Sound) : Accepts (padding.putAll s.fields) s.kind where
  version := by
    rw [get_version]
    exact hs.version
  cred := by
    rw [credLenOf_fields, get_version]
    exact s.cred_length_le
  params := by
    rw [paramsOf_fields]
    exact hs.params
  lengths := by
    unfold LengthsFit
    rw [saltLenOf_fields, credLenOf_fields, hs.cred_eq]
    unfold saltLen
    split
    · rfl
    next h =>
      split
      · rfl
      next h' =>
        split
        · rw [hs.noCred (Bool.eq_false_iff.mpr h) (Bool.eq_false_iff.mpr h')]
          exact ⟨rfl, rfl⟩
        · trivial

theorem toBytes_eq (hs : s.kind ≠ .empty) : s.toBytes padding = padding.putAll s.fields := by
  unfold toBytes isEmpty
  rw [if_neg (by simpa using hs)]
  rfl

theorem fromBytes_put_zero (padding : Buf 512) : fromBytes (padding.put 0 [0]) = .ok empty := by
  have h : (padding.put 0 [0]).get 0 = 0 := by
    rw [Buf.get_put padding (by decide)]
    rfl
  rw [fromBytes_eq, h]
  rfl

/-- A well-formed slot comes back from its bytes, whatever the padding. -/
theorem fromBytes_toBytes (hs : s.WellFormed) (padding : Buf 512) :
    fromBytes (s.toBytes padding) = .ok s := by
  rcases hs with rfl | hs
  · exact fromBytes_put_zero padding
  · rw [toBytes_eq hs.kind, fromBytes_eq, get_kind, SlotKind.fromU8_toU8, ok_bind, if_neg hs.kind]
    rcases readFields_spec (padding.putAll s.fields) s.kind with ⟨h, -⟩ | ⟨-, -, -, hna⟩
    · rw [h, hs.fieldsOf_fields]
    · exact absurd hs.accepts hna

/-- A slot that was parsed from the bytes of another had parameters that pass. -/
theorem params_of_fromBytes_toBytes {s' : Keyslot} (h : fromBytes (s.toBytes padding) = .ok s')
    (hkind : s.kind ≠ .empty) (hruns : s.kind.runsArgon2 = true) :
    s.kdfParams.isSaneForDisk = true := by
  rw [toBytes_eq hkind, fromBytes_eq, get_kind, SlotKind.fromU8_toU8, ok_bind, if_neg hkind] at h
  rcases readFields_spec (padding.putAll s.fields) s.kind with ⟨-, ha⟩ | ⟨e, he, -, -⟩
  · have hsane := ha.params hruns
    rw [paramsOf_fields] at hsane
    exact hsane
  · rw [he] at h
    cases h

end Keyslot

end Luksbox.Core
