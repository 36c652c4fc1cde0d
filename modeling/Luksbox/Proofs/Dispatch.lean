import Mathlib.Order.WellFounded
import Luksbox.Model.Unlock
import Luksbox.Proofs.Tampering

/-!
# The unlock dispatcher

Which slots a material is for is told by the factors of their kinds, and which
unlock function belongs to a slot by its kind; `attempt_eq` says that the arms
of `try_unlock` follow that table. They differ in where their loop stops: the
FIDO2 arms at the first slot of their kinds with the given credential id,
whatever comes out of it, the others at the first slot that gives a key. The
HMAC is checked afterwards, so a slot where the loop stops hides every later
one.
-/

namespace Luksbox.Core

open Lib

variable {c : Crypto} {h : Header} {raw : Buf 8192} {material : UnlockMaterial}

/-! ## The loops -/

section Loops

variable {att : Fin 8 → Option (Except Error Key)} {l : List (Fin 8)} {mvk : Key}

/-- The slot gives a key. -/
def Gives (r : Option (Except Error Key)) : Prop := ∃ mvk, r = some (.ok mvk)

theorem keepFirst_some (found : Key) : keepFirst att l (some found) = some found := by
  induction l with
  | nil => rfl
  | cons i rest ih =>
      unfold keepFirst
      split
      · exact ih
      · exact ih

/-- Going on after a match does not change the result. -/
theorem keepFirst_none : keepFirst att l none = firstSuccess att l := by
  induction l with
  | nil => rfl
  | cons i rest ih =>
      unfold keepFirst firstSuccess
      split
      · exact keepFirst_some _
      · exact ih

theorem firstMatch_iff {r : Except Error Key} (hl : l.Pairwise (· < ·)) :
    firstMatch att l = some r ↔ ∃ i ∈ l, att i = some r ∧ ∀ j ∈ l, j < i → att j = none := by
  induction l with
  | nil =>
      constructor
      · intro h
        cases h
      · rintro ⟨i, hi, -⟩
        cases hi
  | cons k rest ih =>
      rw [List.pairwise_cons] at hl
      unfold firstMatch
      split
      next r' hr' =>
        constructor
        · intro h
          cases h
          refine ⟨k, List.mem_cons_self, hr', fun j hj hlt => ?_⟩
          rcases List.mem_cons.mp hj with rfl | hj
          · exact absurd hlt (lt_irrefl _)
          · exact absurd hlt (lt_asymm (hl.1 j hj))
        · rintro ⟨i, hi, hok, hfirst⟩
          rcases List.mem_cons.mp hi with rfl | hi
          · exact hr'.symm.trans hok
          · rw [hfirst k List.mem_cons_self (hl.1 i hi)] at hr'
            cases hr'
      next hk =>
        rw [ih hl.2]
        constructor
        · rintro ⟨i, hi, hok, hfirst⟩
          refine ⟨i, List.mem_cons_of_mem k hi, hok, fun j hj hlt => ?_⟩
          rcases List.mem_cons.mp hj with rfl | hj
          · exact hk
          · exact hfirst j hj hlt
        · rintro ⟨i, hi, hok, hfirst⟩
          rcases List.mem_cons.mp hi with rfl | hi
          · rw [hk] at hok
            cases hok
          · exact ⟨i, hi, hok, fun j hj => hfirst j (List.mem_cons_of_mem k hj)⟩

/-- A slot that gives no key does not match. -/
def onlyKeys (att : Fin 8 → Option (Except Error Key)) (i : Fin 8) : Option (Except Error Key) :=
  match att i with
  | some (.ok mvk) => some (.ok mvk)
  | _ => none

theorem onlyKeys_some {i : Fin 8} : onlyKeys att i = some (.ok mvk) ↔ att i = some (.ok mvk) := by
  unfold onlyKeys
  split
  next m hm => rw [hm]
  next hnot =>
    constructor
    · intro h
      cases h
    · exact fun h => absurd h (hnot mvk)

theorem onlyKeys_none {i : Fin 8} : onlyKeys att i = none ↔ ¬ Gives (att i) := by
  unfold onlyKeys
  split
  next m hm =>
    constructor
    · intro h
      cases h
    · exact fun h => absurd ⟨m, hm⟩ h
  next hnot => exact ⟨fun _ ⟨m, hm⟩ => hnot m hm, fun _ => rfl⟩

/-- The first key is the first match among the slots that give one. -/
theorem firstSuccess_eq :
    firstSuccess att l = some mvk ↔ firstMatch (onlyKeys att) l = some (.ok mvk) := by
  induction l with
  | nil =>
      constructor
      · intro h
        cases h
      · intro h
        cases h
  | cons k rest ih =>
      unfold firstSuccess firstMatch
      split
      next m hm =>
        rw [onlyKeys_some.mpr hm]
        constructor
        · intro h
          cases h
          rfl
        · intro h
          cases h
          rfl
      next hnot =>
        rw [onlyKeys_none.mpr fun ⟨m, hm⟩ => hnot m hm]
        exact ih

theorem firstSuccess_iff (hl : l.Pairwise (· < ·)) :
    firstSuccess att l = some mvk
      ↔ ∃ i ∈ l, att i = some (.ok mvk) ∧ ∀ j ∈ l, j < i → ¬ Gives (att j) := by
  rw [firstSuccess_eq, firstMatch_iff hl]
  simp only [onlyKeys_some, onlyKeys_none]

end Loops

/-! ## Which slots a material is for -/

/-- The factors without which a slot does not open. -/
structure Factors where
  passphrase : Bool := false
  fido2 : Bool := false
  pq : Bool := false
  tpm2 : Bool := false
  sep : Bool := false
  deriving DecidableEq

/-- A FIDO2 slot may have been enrolled with a passphrase as well, which its kind
does not tell, and a PIN or a fingerprint is asked for by the device. -/
def SlotKind.factors : SlotKind → Factors
  | .empty => {}
  | .passphrase => { passphrase := true }
  | .fido2HmacSecret | .fido2DerivedMvk => { fido2 := true }
  | .hybridPqKemPassphrase | .hybridPqKem1024Passphrase => { passphrase := true, pq := true }
  | .hybridPqKemFido2 | .hybridPqKem1024Fido2 => { fido2 := true, pq := true }
  | .tpm2Sealed | .tpm2SealedPin => { tpm2 := true }
  | .tpm2Fido2 => { tpm2 := true, fido2 := true }
  | .hybridPqKemTpm2 | .hybridPqKem1024Tpm2 => { tpm2 := true, pq := true }
  | .hybridPqKemTpm2Fido2 | .hybridPqKem1024Tpm2Fido2 => { tpm2 := true, fido2 := true, pq := true }
  | .sepSealed | .sepSealedBiometric => { sep := true }
  | .hybridPqKemSep | .hybridPqKem1024Sep => { sep := true, pq := true }
  | .sepFido2 => { sep := true, fido2 := true }
  | .hybridPqKemSepFido2 | .hybridPqKem1024SepFido2 => { sep := true, fido2 := true, pq := true }
  | .sepPassphrase => { sep := true, passphrase := true }
  | .hybridPqKemSepPassphrase | .hybridPqKem1024SepPassphrase =>
      { sep := true, passphrase := true, pq := true }
  | .sepFido2Passphrase => { sep := true, fido2 := true, passphrase := true }
  | .hybridPqKemSepFido2Passphrase | .hybridPqKem1024SepFido2Passphrase =>
      { sep := true, fido2 := true, passphrase := true, pq := true }

/-- What the user brings, whatever the arm. -/
structure Brought where
  factors : Factors
  passphrase : Option (List UInt8) := none
  credId : Option (List UInt8) := none
  hmacSecret : Option Key := none
  pqShared : Option Key := none
  unsealBlob : List UInt8 → Option Key := fun _ => none

def UnlockMaterial.brings : UnlockMaterial → Brought
  | .passphrase pw => { factors := { passphrase := true }, passphrase := some pw }
  | .fido2 pw cred hs =>
      { factors := { fido2 := true }, passphrase := pw, credId := some cred, hmacSecret := some hs }
  | .hybridPqPassphrase pw pq =>
      { factors := { passphrase := true, pq := true }, passphrase := some pw, pqShared := some pq }
  | .hybridPqFido2 pw cred hs pq =>
      { factors := { fido2 := true, pq := true }, passphrase := pw, credId := some cred,
        hmacSecret := some hs, pqShared := some pq }
  | .tpm2 unsealBlob => { factors := { tpm2 := true }, unsealBlob }
  | .tpm2Fido2 unsealBlob cred hs =>
      { factors := { tpm2 := true, fido2 := true }, credId := some cred, hmacSecret := some hs,
        unsealBlob }
  | .hybridPqTpm2 unsealBlob pq =>
      { factors := { tpm2 := true, pq := true }, pqShared := some pq, unsealBlob }
  | .hybridPqTpm2Fido2 unsealBlob cred hs pq =>
      { factors := { tpm2 := true, fido2 := true, pq := true }, credId := some cred,
        hmacSecret := some hs, pqShared := some pq, unsealBlob }
  | .sep unsealBlob hs pw pq =>
      { factors :=
          { sep := true, fido2 := hs.isSome, passphrase := pw.isSome, pq := pq.isSome }
        passphrase := pw, hmacSecret := hs, pqShared := pq, unsealBlob }

/-- The credential id a slot was enrolled for; behind the sealed blob where it
keeps one. -/
def Keyslot.credential (s : Keyslot) : Option (List UInt8) :=
  if s.kind.holdsTpmPair then s.tpm2Fido2CredId else some s.fido2CredId

/-- The slot asks for exactly the factors that are brought, and for the
credential, if one is named. -/
def Addressed (h : Header) (b : Brought) (i : Fin 8) : Prop :=
  (h.keyslots i).kind.factors = b.factors
    ∧ ∀ id ∈ b.credId, (h.keyslots i).credential = some id

instance (h : Header) (b : Brought) (i : Fin 8) : Decidable (Addressed h b i) :=
  inferInstanceAs (Decidable (_ ∧ ∀ id ∈ b.credId, _))

/-- The unlock function of the slot's kind with what is brought; `none` where a
factor is missing or the device does not unseal the slot's blob. -/
def unlockOfKind (c : Crypto) (h : Header) (b : Brought) (i : Fin 8) : Option (Except Error Key) :=
  let s := h.keyslots i
  match s.kind with
  | .empty => none
  | .passphrase => do
      some (s.unlockPassphrase c h.cipherSuite h.headerSalt (← b.passphrase))
  | .fido2HmacSecret => do
      some (s.unlockFido2 c h.cipherSuite h.headerSalt b.passphrase (← b.hmacSecret))
  | .fido2DerivedMvk => do some (s.unlockFido2DerivedMvk c (← b.hmacSecret))
  | .hybridPqKemPassphrase | .hybridPqKem1024Passphrase => do
      some (s.unlockHybridPqPassphrase c h.cipherSuite h.headerSalt (← b.passphrase) (← b.pqShared))
  | .hybridPqKemFido2 | .hybridPqKem1024Fido2 => do
      some (s.unlockHybridPqFido2 c h.cipherSuite h.headerSalt b.passphrase (← b.hmacSecret)
        (← b.pqShared))
  | .tpm2Sealed | .tpm2SealedPin => do
      some (s.unlockTpm2 c h.cipherSuite h.headerSalt (← b.unsealBlob (← s.tpm2SealedBlob)))
  | .tpm2Fido2 => do
      some (s.unlockTpm2Fido2 c h.cipherSuite h.headerSalt
        (← b.unsealBlob (← s.tpm2Fido2SealedBlob)) (← b.hmacSecret))
  | .hybridPqKemTpm2 | .hybridPqKem1024Tpm2 => do
      some (s.unlockHybridPqTpm2 c h.cipherSuite h.headerSalt
        (← b.unsealBlob (← s.tpm2SealedBlob)) (← b.pqShared))
  | .hybridPqKemTpm2Fido2 | .hybridPqKem1024Tpm2Fido2 => do
      some (s.unlockHybridPqTpm2Fido2 c h.cipherSuite h.headerSalt
        (← b.unsealBlob (← s.tpm2Fido2SealedBlob)) (← b.hmacSecret) (← b.pqShared))
  | .sepSealed | .sepSealedBiometric | .hybridPqKemSep | .hybridPqKem1024Sep | .sepFido2
  | .hybridPqKemSepFido2 | .hybridPqKem1024SepFido2 | .sepPassphrase | .hybridPqKemSepPassphrase
  | .hybridPqKem1024SepPassphrase | .sepFido2Passphrase | .hybridPqKemSepFido2Passphrase
  | .hybridPqKem1024SepFido2Passphrase => do
      let sepShared ← b.unsealBlob (← h.sepBlobs i)
      some (s.unlockSep c h.cipherSuite h.headerSalt
        { sepShared := sepShared, hmacSecret := b.hmacSecret, passphrase := b.passphrase,
          pqShared := b.pqShared })

/-- Which kinds each arm is for, told by the factors. -/
theorem factors_eq_iff (kind : SlotKind) :
    (kind.factors = { passphrase := true } ↔ kind = .passphrase)
      ∧ (kind.factors = { fido2 := true } ↔ kind = .fido2HmacSecret ∨ kind = .fido2DerivedMvk)
      ∧ (kind.factors = { passphrase := true, pq := true } ↔ kind.isHybridPqPassphrase = true)
      ∧ (kind.factors = { fido2 := true, pq := true } ↔ kind.isHybridPqFido2 = true)
      ∧ (kind.factors = { tpm2 := true } ↔ kind = .tpm2Sealed ∨ kind = .tpm2SealedPin)
      ∧ (kind.factors = { tpm2 := true, fido2 := true } ↔ kind = .tpm2Fido2)
      ∧ (kind.factors = { tpm2 := true, pq := true }
          ↔ kind = .hybridPqKemTpm2 ∨ kind = .hybridPqKem1024Tpm2)
      ∧ (kind.factors = { tpm2 := true, fido2 := true, pq := true }
          ↔ kind = .hybridPqKemTpm2Fido2 ∨ kind = .hybridPqKem1024Tpm2Fido2) := by
  cases kind <;> decide

theorem sepFactors_eq_iff (kind : SlotKind) (fido2 passphrase pq : Bool) :
    kind.factors = { sep := true, fido2 := fido2, passphrase := passphrase, pq := pq }
      ↔ kind.isSep = true ∧ kind.isSepFido2 = fido2 ∧ kind.isSepPassphrase = passphrase
        ∧ kind.isHybridPq = pq := by
  revert fido2 passphrase pq
  cases kind <;> decide

/-- The dispatcher tries exactly the slots the material is for, each with the
unlock function of its kind. -/
theorem attempt_eq (i : Fin 8) :
    attempt c h material i
      = if Addressed h material.brings i then unlockOfKind c h material.brings i else none := by
  cases material with
  | passphrase pw =>
      simp only [attempt, Addressed, UnlockMaterial.brings, factors_eq_iff]
      by_cases hk : (h.keyslots i).kind = .passphrase
      · simp [unlockOfKind, hk]
      · simp [hk]
  | fido2 pw cred hs =>
      simp only [attempt, Addressed, UnlockMaterial.brings, factors_eq_iff]
      cases hk : (h.keyslots i).kind <;>
        simp [unlockOfKind, hk, Keyslot.credential, SlotKind.holdsTpmPair]
  | hybridPqPassphrase pw pq =>
      simp only [attempt, Addressed, UnlockMaterial.brings, factors_eq_iff]
      cases hk : (h.keyslots i).kind <;> simp [unlockOfKind, hk, SlotKind.isHybridPqPassphrase]
  | hybridPqFido2 pw cred hs pq =>
      simp only [attempt, Addressed, UnlockMaterial.brings, factors_eq_iff]
      cases hk : (h.keyslots i).kind <;>
        simp [unlockOfKind, hk, SlotKind.isHybridPqFido2, Keyslot.credential, SlotKind.holdsTpmPair]
  | tpm2 unsealBlob =>
      simp only [attempt, Addressed, UnlockMaterial.brings, factors_eq_iff]
      cases hk : (h.keyslots i).kind <;> simp [unlockOfKind, hk]
  | tpm2Fido2 unsealBlob cred hs =>
      simp only [attempt, Addressed, UnlockMaterial.brings, factors_eq_iff]
      by_cases hk : (h.keyslots i).kind = .tpm2Fido2
      · cases hc : (h.keyslots i).tpm2Fido2CredId with
        | none => simp [hk, hc, Keyslot.credential, SlotKind.holdsTpmPair]
        | some stored => simp [unlockOfKind, hk, hc, Keyslot.credential, SlotKind.holdsTpmPair]
      · simp [hk]
  | hybridPqTpm2 unsealBlob pq =>
      simp only [attempt, Addressed, UnlockMaterial.brings, factors_eq_iff]
      cases hk : (h.keyslots i).kind <;> simp [unlockOfKind, hk]
  | hybridPqTpm2Fido2 unsealBlob cred hs pq =>
      simp only [attempt, Addressed, UnlockMaterial.brings, factors_eq_iff]
      cases hc : (h.keyslots i).tpm2Fido2CredId <;> cases hk : (h.keyslots i).kind <;>
        simp [unlockOfKind, hk, hc, Keyslot.credential, SlotKind.holdsTpmPair]
  | sep unsealBlob hs pw pq =>
      simp only [attempt, Addressed, UnlockMaterial.brings, sepFactors_eq_iff, ne_eq,
        ← not_and_or, ite_not]
      cases hk : (h.keyslots i).kind <;> simp [unlockOfKind, hk, SlotKind.isSep]

/-! ## Where the loop stops -/

/-- The slot is one the material is for and gives it the key. -/
def Opens (c : Crypto) (h : Header) (material : UnlockMaterial) (i : Fin 8) (mvk : Key) : Prop :=
  Addressed h material.brings i ∧ unlockOfKind c h material.brings i = some (.ok mvk)

/-- The slot gives a key under which the header verifies. -/
def Good (c : Crypto) (h : Header) (raw : Buf 8192) (material : UnlockMaterial) (i : Fin 8) : Prop :=
  ∃ mvk, Opens c h material i mvk ∧ h.verifyHmac c raw mvk = .ok ()

/-- The materials that name one credential of a plain security key: the search
ends with the first slot of that credential, whatever comes out of it. -/
def UnlockMaterial.stopsOnMatch : UnlockMaterial → Bool
  | .fido2 .. => true
  | .hybridPqFido2 .. => true
  | _ => false

/-- The slot ends the search. -/
def Stops (c : Crypto) (h : Header) (material : UnlockMaterial) (i : Fin 8) : Prop :=
  Addressed h material.brings i
    ∧ (material.stopsOnMatch = true ∨ ∃ mvk, Opens c h material i mvk)

/-- The slot ends the search without opening the vault. -/
def Hides (c : Crypto) (h : Header) (raw : Buf 8192) (material : UnlockMaterial) (i : Fin 8) :
    Prop :=
  Stops c h material i ∧ ¬ Good c h raw material i

def FirstStop (c : Crypto) (h : Header) (material : UnlockMaterial) (i : Fin 8) : Prop :=
  Stops c h material i ∧ ∀ j < i, ¬ Stops c h material j

theorem attempt_ok_iff {i : Fin 8} {mvk : Key} :
    attempt c h material i = some (.ok mvk) ↔ Opens c h material i mvk := by
  rw [attempt_eq]
  unfold Opens
  split
  next ha => simp only [ha, true_and]
  next ha => simp only [ha, false_and, reduceCtorEq]

/-- A plain security key answers for every slot of its credential. -/
theorem unlockOfKind_ne_none (hstop : material.stopsOnMatch = true) {i : Fin 8}
    (ha : Addressed h material.brings i) : unlockOfKind c h material.brings i ≠ none := by
  obtain ⟨hkind, -⟩ := ha
  cases material with
  | fido2 pw cred hs =>
      rcases (factors_eq_iff _).2.1.mp hkind with hk | hk <;>
        simp [unlockOfKind, UnlockMaterial.brings, hk]
  | hybridPqFido2 pw cred hs pq =>
      have hpq := (factors_eq_iff _).2.2.2.1.mp hkind
      cases hk : (h.keyslots i).kind <;>
        simp [unlockOfKind, UnlockMaterial.brings, hk, SlotKind.isHybridPqFido2] at hpq ⊢
  | _ => cases hstop

theorem stops_iff {i : Fin 8} :
    Stops c h material i
      ↔ if material.stopsOnMatch then attempt c h material i ≠ none
        else Gives (attempt c h material i) := by
  unfold Stops Gives
  simp only [attempt_ok_iff]
  split
  next hstop =>
    rw [attempt_eq]
    simp only [hstop, true_or, and_true]
    constructor
    · intro ha
      rw [if_pos ha]
      exact unlockOfKind_ne_none hstop ha
    · intro hne
      by_contra ha
      exact hne (if_neg ha)
  next hstop =>
    simp only [hstop, Bool.false_eq_true, false_or]
    exact ⟨fun h => h.2, fun ⟨mvk, h⟩ => ⟨h.1, mvk, h⟩⟩

theorem okOrFailed_ok {o : Option Key} {mvk : Key} : okOrFailed o = .ok mvk ↔ o = some mvk := by
  cases o with
  | none => simp [okOrFailed]
  | some k => simp [okOrFailed]

theorem liftCrypto_ok {α : Type} {x : Except Error α} {a : α} :
    liftCrypto x = .ok a ↔ x = .ok a := by
  cases x with
  | error e => simp [liftCrypto]
  | ok b => simp [liftCrypto]

theorem matchOrNotFound_ok {o : Option (Except Error Key)} {mvk : Key} :
    matchOrNotFound o = .ok mvk ↔ o = some (.ok mvk) := by
  cases o with
  | none => simp [matchOrNotFound]
  | some r => simp [matchOrNotFound, liftCrypto_ok]

/-- Every arm returns the first key or the first match. -/
theorem tryUnlock_eq (mvk : Key) :
    tryUnlock c h material = .ok mvk
      ↔ if material.stopsOnMatch then
          firstMatch (attempt c h material) (List.finRange 8) = some (.ok mvk)
        else firstSuccess (attempt c h material) (List.finRange 8) = some mvk := by
  cases material <;>
    simp [tryUnlock, UnlockMaterial.stopsOnMatch, okOrFailed_ok, matchOrNotFound_ok, keepFirst_none]

/-- The dispatcher returns what the slot where its loop stops gives. -/
theorem tryUnlock_ok_iff (mvk : Key) :
    tryUnlock c h material = .ok mvk
      ↔ ∃ i, FirstStop c h material i ∧ Opens c h material i mvk := by
  rw [tryUnlock_eq]
  unfold FirstStop
  simp only [stops_iff, ← attempt_ok_iff]
  split
  · rw [firstMatch_iff (List.pairwise_lt_finRange 8)]
    constructor
    · rintro ⟨i, -, hok, hfirst⟩
      refine ⟨i, ⟨?_, fun j hj hne => hne (hfirst j (List.mem_finRange j) hj)⟩, hok⟩
      rw [hok]
      exact fun h => by cases h
    · rintro ⟨i, ⟨-, hfirst⟩, hok⟩
      exact ⟨i, List.mem_finRange i, hok, fun j _ hj => not_not.mp (hfirst j hj)⟩
  · rw [firstSuccess_iff (List.pairwise_lt_finRange 8)]
    constructor
    · rintro ⟨i, -, hok, hfirst⟩
      exact ⟨i, ⟨⟨mvk, hok⟩, fun j hj => hfirst j (List.mem_finRange j) hj⟩, hok⟩
    · rintro ⟨i, ⟨-, hfirst⟩, hok⟩
      exact ⟨i, List.mem_finRange i, hok, fun j _ hj => hfirst j hj⟩

theorem FirstStop.unique {i j : Fin 8} (hi : FirstStop c h material i)
    (hj : FirstStop c h material j) : i = j := by
  rcases lt_trichotomy i j with hlt | heq | hlt
  · exact absurd hi.1 (hj.2 i hlt)
  · exact heq
  · exact absurd hj.1 (hi.2 j hlt)

theorem Good.stops {j : Fin 8} (hj : Good c h raw material j) : Stops c h material j := by
  obtain ⟨mvk, hopens, -⟩ := hj
  exact ⟨hopens.1, .inr ⟨mvk, hopens⟩⟩

theorem exists_firstStop {j : Fin 8} (hj : Stops c h material j) :
    ∃ i, FirstStop c h material i := by
  obtain ⟨i, hi, hmin⟩ := WellFounded.has_min (r := (· < ·)) wellFounded_lt
    {i | Stops c h material i} ⟨j, hj⟩
  exact ⟨i, hi, fun k hk hstop => hmin k hstop hk⟩

theorem unlockAndVerify_iff {mvk : Key} :
    unlockAndVerify c material h raw = .ok mvk
      ↔ tryUnlock c h material = .ok mvk ∧ h.verifyHmac c raw mvk = .ok () := by
  unfold unlockAndVerify
  constructor
  · intro hok
    obtain ⟨k, htry, hok⟩ := except_bind_eq_ok.mp hok
    obtain ⟨u, hverify, hok⟩ := except_bind_eq_ok.mp hok
    cases hok
    exact ⟨htry, liftCrypto_ok.mp hverify⟩
  · rintro ⟨htry, hverify⟩
    rw [htry, ok_bind, hverify]
    rfl

theorem unlockAndVerify_ok {mvk : Key} (hok : unlockAndVerify c material h raw = .ok mvk) :
    ∃ i, Good c h raw material i := by
  obtain ⟨htry, hverify⟩ := unlockAndVerify_iff.mp hok
  obtain ⟨i, -, hi⟩ := (tryUnlock_ok_iff mvk).mp htry
  exact ⟨i, mvk, hi, hverify⟩

/-- The dispatcher finds a slot that opens the vault whenever there is one, and
the open fails when there is none, exactly if one of those that open it lies
before every slot that would hide it. -/
theorem dispatcher_complete_iff (c : Crypto) (h : Header) (raw : Buf 8192)
    (material : UnlockMaterial) :
    (((∃ j, Good c h raw material j) →
          ∃ mvk, tryUnlock c h material = .ok mvk ∧ h.verifyHmac c raw mvk = .ok ())
        ∧ ((¬ ∃ j, Good c h raw material j) →
            ∀ mvk, unlockAndVerify c material h raw ≠ .ok mvk))
      ↔ ((∃ j, Good c h raw material j) →
          ∃ j, Good c h raw material j ∧ ∀ i < j, ¬ Hides c h raw material i) := by
  constructor
  · rintro ⟨hcomplete, -⟩ hgood
    obtain ⟨mvk, hok, hverify⟩ := hcomplete hgood
    obtain ⟨i, hi, hopens⟩ := (tryUnlock_ok_iff mvk).mp hok
    exact ⟨i, ⟨mvk, hopens, hverify⟩, fun k hk hhides => hi.2 k hk hhides.1⟩
  · intro hfirst
    constructor
    · intro hgood
      obtain ⟨j, hj, hbefore⟩ := hfirst hgood
      obtain ⟨i, hi⟩ := exists_firstStop hj.stops
      -- the search ends at the good slot or before it, and nothing before it hides it
      have hi' : Good c h raw material i := by
        rcases lt_trichotomy i j with hlt | rfl | hlt
        · by_contra hbad
          exact hbefore i hlt ⟨hi.1, hbad⟩
        · exact hj
        · exact absurd hj.stops (hi.2 j hlt)
      obtain ⟨mvk, hopens, hverify⟩ := hi'
      exact ⟨mvk, (tryUnlock_ok_iff mvk).mpr ⟨i, hi, hopens⟩, hverify⟩
    · exact fun hnone mvk hok => hnone (unlockAndVerify_ok hok)

/-! ## One credential, two slots -/

def twinParams : Argon2idParams := ⟨65536, 3, 1⟩

def twinKek (passphrase : List UInt8) : Key :=
  firstBytes 32
    (Crypto.fidoPrefix ++ passphrase ++ [0xff] ++ (firstBytes 32 [77]).val ++ sampleRng.kdfSalt.val)

/-- A FIDO2 slot of the credential `[9]`, enrolled with the given passphrase. -/
def twinSlot (passphrase : List UInt8) : Keyslot :=
  plainWrapped (Keyslot.blank .fido2HmacSecret sampleRng twinParams [9] (firstBytes 32 [6]))
    (twinKek passphrase) sampleMvk

/-- The same credential in two slots, first with a passphrase and then without. -/
def twinHeader : Header :=
  { Header.sample with
    flags := 0
    sepBlobs := fun _ => none
    keyslots := fun i =>
      if i = 0 then twinSlot [1] else if i = 1 then twinSlot [] else Keyslot.empty }

def twinRaw : Buf 8192 := twinHeader.toBytes plainCrypto sampleMvk ⟨Bytes.zero 3968, fun _ _ => 0⟩

/-- The authenticator answers, and no passphrase is given. -/
def twinMaterial : UnlockMaterial := .fido2 none [9] (firstBytes 32 [77])

theorem twinSlot_sound (passphrase : List UInt8) : (twinSlot passphrase).Sound where
  kind := by
    show SlotKind.fido2HmacSecret ≠ .empty
    decide
  version := by
    show aadVersionV4 ≤ aadVersionV4
    decide
  cred := by
    show ([9] : List UInt8).length ≤ fido2CredIdMax
    decide
  params := fun _ => by
    show twinParams.isSaneForDisk = true
    decide
  salt := fun hno => by cases hno
  noCred := fun hno => by cases hno

theorem twinHeader_wellFormed : twinHeader.WellFormed where
  version := by decide
  generation := by decide
  chunkSize := by decide
  extents := by rfl
  slots := by
    intro i
    show (if i = 0 then _ else if i = 1 then _ else _ : Keyslot).WellFormed
    split
    · exact Or.inr (twinSlot_sound _)
    · split
      · exact Or.inr (twinSlot_sound _)
      · exact Or.inl rfl
  noBlobs := fun _ => rfl
  blobsFit := by decide

theorem twin_second : Opens plainCrypto twinHeader twinMaterial 1 sampleMvk :=
  ⟨by decide, rfl⟩

/-- With the passphrase of the first slot both slots are found in time. -/
def twinOwner : UnlockMaterial := .fido2 (some [1]) [9] (firstBytes 32 [77])

theorem twin_verifies : twinHeader.verifyHmac plainCrypto twinRaw sampleMvk = .ok () :=
  twinHeader.verifyHmac_toBytes plainCrypto sampleMvk _

theorem twin_owner_unlocks :
    ∃ mvk, tryUnlock plainCrypto twinHeader twinOwner = .ok mvk
      ∧ twinHeader.verifyHmac plainCrypto twinRaw mvk = .ok () := by
  have hgood : Good plainCrypto twinHeader twinRaw twinOwner 0 :=
    ⟨sampleMvk, ⟨by decide, rfl⟩, twin_verifies⟩
  exact ((dispatcher_complete_iff plainCrypto twinHeader twinRaw twinOwner).mpr fun _ =>
    ⟨0, hgood, fun i hi => absurd hi (Fin.not_lt_zero i)⟩).1 ⟨0, hgood⟩

/-- The second slot opens the vault, and the first one, with the same credential
id, ends the search. -/
theorem twin_credential_hides_slot :
    Header.fromBytes twinRaw = .ok twinHeader
      ∧ Good plainCrypto twinHeader twinRaw twinMaterial 1
      ∧ ∀ mvk, tryUnlock plainCrypto twinHeader twinMaterial ≠ .ok mvk := by
  refine ⟨Header.fromBytes_toBytes twinHeader_wellFormed _ _ _,
    ⟨sampleMvk, twin_second, twin_verifies⟩, ?_⟩
  intro mvk hok
  have hzero : FirstStop plainCrypto twinHeader twinMaterial 0 :=
    ⟨⟨by decide, .inl rfl⟩, fun j hj => absurd hj (Fin.not_lt_zero j)⟩
  obtain ⟨i, hi, -, hgives⟩ := (tryUnlock_ok_iff mvk).mp hok
  rw [hi.unique hzero] at hgives
  cases hgives

end Luksbox.Core
