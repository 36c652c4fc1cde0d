import Luksbox.Proofs.Deniable

/-!
# Torn writes of the deniable header

`persist_header` overwrites salt, slots and inner header in place. After a
power loss every region of the header is the old one, the new one or neither.
A slot the write does not change is whole whatever happens, and so is a v2
inner header, which no slot mutation touches. A v3 inner header is sealed anew
over the digest of the whole slot table, so it only fits the table of its own
write.
-/

namespace Luksbox

open Lib

variable {accepts : Argon2idParams → Bool}

theorem mixRegion_cases {α : Type} [DecidableEq α] (applied : Nat → Bool) (off len : Nat)
    (old new torn : α) :
    mixRegion applied off len old new torn = old ∨ mixRegion applied off len old new torn = new ∨
      mixRegion applied off len old new torn = torn := by
  unfold mixRegion
  split
  · exact .inl rfl
  split
  · exact .inr (.inl rfl)
  split
  · exact .inl rfl
  · exact .inr (.inr rfl)

@[simp] theorem mixRegion_self {α : Type} [DecidableEq α] (applied : Nat → Bool) (off len : Nat)
    (old torn : α) : mixRegion applied off len old old torn = old := by
  unfold mixRegion
  exact if_pos rfl

def DeniableHeader.IsV2 (h : DeniableHeader) : Prop := ∃ b, h.inner = .box b ∧ b.v3 = none

/-- The write left an inner header whole, and the inner header is a v2 one or
the slot table is the one it was written with. -/
def WholeAfter (applied : Nat → Bool) (old new : DeniableHeader) : Prop :=
  ((DeniableHeader.torn applied old new).inner = old.inner ∧
      (old.IsV2 ∨ (DeniableHeader.torn applied old new).slots = old.slots)) ∨
    ((DeniableHeader.torn applied old new).inner = new.inner ∧
      (new.IsV2 ∨ (DeniableHeader.torn applied old new).slots = new.slots))

/-- The credential opens the header, through slot `i`. -/
def OpensAt (accepts : Argon2idParams → Bool) (h : DeniableHeader) (c : DeniableCredential)
    (i : Fin deniableSlotCount) : Prop :=
  ∃ e o, deniableOpen accepts h c (some c.kindTag) = .ok (e, o) ∧ e.matchedSlotIdx = i

section Torn

variable {old new : DeniableHeader} {salt mvk : Nat} {instOld instNew : Installed}
  {c : DeniableCredential} {i : Fin deniableSlotCount} {applied : Nat → Bool}

/-- What the table holds where the torn header still has a whole slot. -/
def mixInstalled (applied : Nat → Bool) (old new : DeniableHeader) (instOld instNew : Installed) :
    Installed := fun i =>
  if (DeniableHeader.torn applied old new).slots i = old.slots i then instOld i
  else if (DeniableHeader.torn applied old new).slots i = new.slots i then instNew i
  else none

theorem Carries.torn (applied : Nat → Bool) (ho : Carries accepts old salt mvk instOld)
    (hn : Carries accepts new salt mvk instNew) :
    Carries accepts (DeniableHeader.torn applied old new) salt mvk
      (mixInstalled applied old new instOld instNew) where
  saltIs := by
    show mixRegion applied 0 deniableSaltSize old.salt new.salt none = some salt
    rw [ho.saltIs, hn.saltIs]
    exact mixRegion_self ..
  slots := by
    intro j
    unfold mixInstalled
    split
    · next h => rw [h]; exact ho.slots j
    next hold =>
    split
    · next h => rw [h]; exact hn.slots j
    next hnew =>
    rcases mixRegion_cases applied (deniableSaltSize + j.val * deniableSlotSize) deniableSlotSize
      (old.slots j) (new.slots j) .torn with h | h | h
    · exact absurd h hold
    · exact absurd h hnew
    · intro kek s k
      show (mixRegion applied _ _ (old.slots j) (new.slots j) .torn).openEnvelope kek s k = none
      rw [h]
      rfl

/-- A credential that opens through slot `i` is installed there, and nothing
before slot `i` is taken for it. -/
theorem Carries.of_opensAt {h : DeniableHeader} {inst : Installed} {inner : DeniableInnerHeader}
    (hc : Carries accepts h salt mvk inst) (hin : InnerFits h salt mvk inner)
    (ho : OpensAt accepts h c i) :
    (∃ m, inst i = some (c, m)) ∧
      ∀ k, k < i → ∀ d n, inst k = some (d, n) → ¬ SameDiscovery d c := by
  obtain ⟨e, o, hopen, hidx⟩ := ho
  obtain ⟨i', m', hi'⟩ := hc.installed_of_open hin hopen
  have hacc : accepts c.argon2 = true := by
    have hs := hc.slots i'
    rw [hi'] at hs
    exact hs.2.1
  rcases hc.tryOpen_eq hacc (some c.kindTag) with ⟨-, hnobody⟩ | ⟨j, d, n, w, hj, hp, ha, hok, hmin⟩
  · exact absurd rfl (hnobody i' c m' hi' rfl)
  unfold deniableOpen at hopen
  rw [hok] at hopen
  simp only [bind, Except.bind] at hopen
  split at hopen
  · cases hopen
  next o' ho' =>
  injection hopen with hopen
  injection hopen with he _
  subst he
  have hji : j = i := hidx
  subst hji
  obtain ⟨rfl, -, -, -⟩ := completeOpen_iff hin hp ha ho'
  refine ⟨⟨n, hj⟩, fun k hk d' n' hd' hsame => ?_⟩
  have hle := (hmin k d' n' hd' hsame.1 hsame.2.1 hsame.2.2).1
  exact absurd hk (not_lt.2 hle)

/-- Phase 2 ends at the inner header and its digest. -/
theorem completeOpen_inner {e : OpenedDeniableEnvelope} {o : OpenedDeniableHeader}
    (ho : completeOpenV2 e c = .ok o) :
    ∃ b, e.innerHeaderRegion = .box b ∧
      DeniableHeader.checkSlotDigest b.v3 e.slotTableDigest = .ok () := by
  unfold completeOpenV2 at ho
  split at ho
  · cases ho
  simp only at ho
  split at ho
  · cases ho
  next mvk' _ =>
  cases hr : e.innerHeaderRegion with
  | torn =>
      rw [hr] at ho
      cases ho
  | box b =>
      rw [hr] at ho
      simp only [DeniableHeader.openInnerRegion] at ho
      split at ho
      · simp only [bind, Except.bind] at ho
        split at ho
        · cases ho
        next hdig => exact ⟨b, rfl, hdig⟩
      · cases ho

theorem checkSlotDigest_eq_ok {v3 : Option DeniableHeaderV3} {actual : SlotTable} :
    DeniableHeader.checkSlotDigest v3 actual = .ok () ↔
      ∀ v, v3 = some v → v.slotTableDigest = actual := by
  cases v3 with
  | none => exact ⟨fun _ _ h => (nomatch h), fun _ => rfl⟩
  | some v =>
      unfold DeniableHeader.checkSlotDigest
      simp only
      split
      · next h => exact ⟨fun _ _ hv => by injection hv with hv; exact hv ▸ h, fun _ => rfl⟩
      · next h => exact ⟨fun he => (nomatch he), fun hall => absurd (hall v rfl) h⟩

/-- A header whose inner region came whole from `h` accepts the digest of the
table next to it exactly if it is v2 or the table is that of `h`. -/
theorem InnerFits.digest_iff {h : DeniableHeader} {inner : DeniableInnerHeader}
    (hin : InnerFits h salt mvk inner) {b : InnerBox} (hb : h.inner = .box b) (table : SlotTable) :
    DeniableHeader.checkSlotDigest b.v3 table = .ok () ↔ h.IsV2 ∨ table = h.slots := by
  obtain ⟨nonce, v3, hbox, hv3⟩ := hin
  rw [hb] at hbox
  injection hbox with hbox
  rw [checkSlotDigest_eq_ok]
  constructor
  · intro hall
    cases hb3 : b.v3 with
    | none => exact .inl ⟨b, hb, hb3⟩
    | some v =>
        refine .inr ?_
        rw [← hall v hb3]
        exact hv3 v (by rw [← hb3, hbox])
  · rintro (⟨b', hb', hnone⟩ | htable) v hv
    · rw [hb] at hb'
      injection hb' with hb'
      subst hb'
      rw [hnone] at hv
      cases hv
    · rw [htable]
      exact hv3 v (by rw [← hv, hbox])

theorem torn_inner_cases (applied : Nat → Bool) (old new : DeniableHeader) :
    (DeniableHeader.torn applied old new).inner = old.inner ∨
      (DeniableHeader.torn applied old new).inner = new.inner ∨
      (DeniableHeader.torn applied old new).inner = .torn :=
  mixRegion_cases applied deniableInnerOffset deniableInnerSize old.inner new.inner .torn

/-- Where an inner header is left whole and accepts the table, it fits the torn
header as it fitted its own. -/
theorem WholeAfter.innerFits {inner : DeniableInnerHeader} (ho : InnerFits old salt mvk inner)
    (hn : InnerFits new salt mvk inner) (hw : WholeAfter applied old new) :
    InnerFits (DeniableHeader.torn applied old new) salt mvk inner := by
  have key : ∀ h : DeniableHeader, InnerFits h salt mvk inner →
      (DeniableHeader.torn applied old new).inner = h.inner →
      (h.IsV2 ∨ (DeniableHeader.torn applied old new).slots = h.slots) →
      InnerFits (DeniableHeader.torn applied old new) salt mvk inner := by
    intro h hin heq hor
    have hdig := hin
    obtain ⟨nonce, v3, hbox, -⟩ := hin
    refine ⟨nonce, v3, heq.trans hbox, ?_⟩
    exact checkSlotDigest_eq_ok.1 ((hdig.digest_iff hbox _).2 hor)
  rcases hw with ⟨heq, hor⟩ | ⟨heq, hor⟩
  · exact key old ho heq hor
  · exact key new hn heq hor

/-- A credential whose slot the write does not change opens the torn header
exactly if the inner header was left whole and fits the table. -/
theorem opens_torn_iff {inner : DeniableInnerHeader} (ho : Carries accepts old salt mvk instOld)
    (hoin : InnerFits old salt mvk inner) (hn : Carries accepts new salt mvk instNew)
    (hnin : InnerFits new salt mvk inner) (hopenOld : OpensAt accepts old c i)
    (hopenNew : OpensAt accepts new c i) (hsame : old.slots i = new.slots i) :
    (∃ r, deniableOpen accepts (DeniableHeader.torn applied old new) c (some c.kindTag) = .ok r) ↔
      WholeAfter applied old new := by
  have hc := ho.torn applied hn
  obtain ⟨⟨m, hm⟩, hfirstOld⟩ := ho.of_opensAt hoin hopenOld
  obtain ⟨-, hfirstNew⟩ := hn.of_opensAt hnin hopenNew
  have hslot : (DeniableHeader.torn applied old new).slots i = old.slots i := by
    show mixRegion applied _ _ (old.slots i) (new.slots i) .torn = old.slots i
    rw [← hsame]
    exact mixRegion_self ..
  have hi : mixInstalled applied old new instOld instNew i = some (c, m) := by
    unfold mixInstalled
    rw [if_pos hslot, hm]
  have hfirst : ∀ k, k < i → ∀ d n, mixInstalled applied old new instOld instNew k = some (d, n) →
      ¬ SameDiscovery d c := by
    intro k hk d n hd
    unfold mixInstalled at hd
    split at hd
    · exact hfirstOld k hk d n hd
    split at hd
    · exact hfirstNew k hk d n hd
    · cases hd
  constructor
  · rintro ⟨⟨e, o⟩, hopen⟩
    have hacc : accepts c.argon2 = true := by
      have hs := hc.slots i
      rw [hi] at hs
      exact hs.2.1
    rcases hc.tryOpen_eq hacc (some c.kindTag) with ⟨-, hnobody⟩ | ⟨j, d, n, w, -, -, -, hok, -⟩
    · exact absurd rfl (hnobody i c m hi rfl)
    unfold deniableOpen at hopen
    rw [hok] at hopen
    simp only [bind, Except.bind] at hopen
    split at hopen
    · cases hopen
    next o' ho' =>
    obtain ⟨b, hb, hdig⟩ := completeOpen_inner ho'
    have hb : (DeniableHeader.torn applied old new).inner = .box b := hb
    have hdig : DeniableHeader.checkSlotDigest b.v3
        (DeniableHeader.torn applied old new).slots = .ok () := hdig
    rcases torn_inner_cases applied old new with h | h | h
    · exact .inl ⟨h, (hoin.digest_iff (h ▸ hb) _).1 hdig⟩
    · exact .inr ⟨h, (hnin.digest_iff (h ▸ hb) _).1 hdig⟩
    · rw [h] at hb
      cases hb
  · intro hw
    obtain ⟨e, o, hopen, -⟩ :=
      (hc.open_iff (hw.innerFits hoin hnin) hi).2 ⟨i, hi, hfirst⟩
    exact ⟨(e, o), hopen⟩

end Torn

/-! ## Sessions -/

/-- A slot mutation or the upgrade; no rotation, nothing written yet. -/
def DeniableOp.isMutation : DeniableOp → Bool
  | .enroll _ _ _ _ | .clear _ _ | .upgrade => true
  | .rotate _ _ _ _ _ | .persist _ _ => false

section Sessions

variable {v v' : DeniableVault} {inst inst' : Installed}

/-- What only a rotation changes. -/
def SameKeys (v v' : DeniableVault) : Prop :=
  v'.mvk = v.mvk ∧ v'.den.salt = v.den.salt ∧ v'.den.inner = v.den.inner

theorem SameKeys.mutation (hv : Holding accepts v inst) {op : DeniableOp}
    (hop : op.isMutation = true) : SameKeys v (v.exec accepts op).1 := by
  cases op with
  | enroll slotIdx c m seed =>
      cases h : v.den.enroll accepts v.mvk slotIdx c m seed with
      | error e =>
          simp only [DeniableVault.exec, h]
          exact ⟨rfl, rfl, rfl⟩
      | ok den =>
          obtain ⟨-, hsalt, hin, -, -⟩ := enroll_carries hv h
          simp only [DeniableVault.exec, h]
          exact ⟨rfl, hsalt, hin⟩
  | clear slotIdx fill =>
      cases h : v.den.clear slotIdx fill with
      | error e =>
          simp only [DeniableVault.exec, h]
          exact ⟨rfl, rfl, rfl⟩
      | ok den =>
          obtain ⟨-, hsalt, hin, -, -⟩ := clear_carries hv h
          simp only [DeniableVault.exec, h]
          exact ⟨rfl, hsalt, hin⟩
  | upgrade =>
      cases h : v.den.v3 with
      | some v3 =>
          simp only [DeniableVault.exec, h]
          exact ⟨rfl, rfl, rfl⟩
      | none =>
          simp only [DeniableVault.exec, DeniableState.upgrade, h]
          exact ⟨rfl, rfl, rfl⟩
  | rotate newSalt newMvk nonce fill keep => cases hop
  | persist nonce failed => cases hop

theorem SameKeys.mutations (hv : Holding accepts v inst) {ops : List DeniableOp}
    (hops : ∀ op ∈ ops, op.isMutation = true) :
    SameKeys v (ops.foldl (DeniableVault.track accepts) (v, inst)).1 := by
  induction ops generalizing v inst with
  | nil => exact ⟨rfl, rfl, rfl⟩
  | cons op rest ih =>
      obtain ⟨hmvk, hsalt, hin⟩ := SameKeys.mutation hv (hops op List.mem_cons_self)
      obtain ⟨hmvk', hsalt', hin'⟩ := ih (hv.track op) fun o ho => hops o (List.mem_cons_of_mem _ ho)
      exact ⟨hmvk'.trans hmvk, hsalt'.trans hsalt, hin'.trans hin⟩

theorem resealed_keys {den den' : DeniableState} {mvk nonce : Nat}
    (h : den.resealed mvk nonce = .ok den') : den'.salt = den.salt ∧ den'.inner = den.inner := by
  unfold DeniableState.resealed at h
  split at h
  · injection h with h
    exact h ▸ ⟨rfl, rfl⟩
  split at h
  · cases h
  injection h with h
  exact h ▸ ⟨rfl, rfl⟩

end Sessions

/-- A clean vault is changed by slot mutations, and the write of the new header
is cut by a power loss that lets any set of sectors through. A credential that
opened the vault through a slot the write leaves alone, and would open the new
header through it, still opens the vault exactly when the inner header was left
whole and is a v2 one or lies next to the slot table of its own write. -/
theorem torn_deniable_header_opens_iff {h : DeniableHeader} {salt mvk idx nonce : Nat}
    {inner : DeniableInnerHeader} {c₀ : DeniableCredential} {m₀ : DeniableMaterial}
    {fill : Fin deniableSlotCount → Nat} {seed : SlotSeed}
    (hcreate : createWithCredentialV2 accepts c₀ m₀ idx inner salt mvk nonce fill seed = .ok h)
    (ops muts : List DeniableOp) (v v' : DeniableVault) (inst inst' : Installed)
    (hrun : ops.foldl (DeniableVault.track accepts)
      (DeniableVault.created h salt mvk idx inner,
        Installed.put (fun _ => none) idx (some (c₀, m₀))) = (v, inst))
    (hclean : v.headerDirty = false) (hmuts : ∀ op ∈ muts, op.isMutation = true)
    (hrun' : muts.foldl (DeniableVault.track accepts) (v, inst) = (v', inst'))
    (nonce' : Nat) (den : DeniableState) (hseal : v'.den.resealed v'.mvk nonce' = .ok den)
    (applied : Nat → Bool) (c : DeniableCredential) (i : Fin deniableSlotCount)
    (hopenOld : OpensAt accepts v.disk c i) (hopenNew : OpensAt accepts den.bytes c i)
    (hsame : v.disk.slots i = den.bytes.slots i) :
    (∃ r, deniableOpen accepts (DeniableHeader.torn applied v.disk den.bytes) c
        (some c.kindTag) = .ok r) ↔ WholeAfter applied v.disk den.bytes := by
  have hv : Holding accepts v inst := by
    have hall := (Holding.created hcreate).run ops
    rw [hrun] at hall
    exact hall
  have hv' : Holding accepts v' inst' := by
    have hall := hv.run muts
    rw [hrun'] at hall
    exact hall
  obtain ⟨hmvk, hsalt, hin⟩ : SameKeys v v' := by
    have hkeys := SameKeys.mutations hv hmuts
    rw [hrun'] at hkeys
    exact hkeys
  obtain ⟨hdisk, hold⟩ := hv.disk hclean
  have hcold := hv.bytes
  rw [← hdisk] at hcold
  obtain ⟨hcnew, hnew, -⟩ := resealed_holds hv' hseal
  obtain ⟨hsalt', hin'⟩ := resealed_keys hseal
  rw [hsalt', hsalt, hmvk] at hcnew
  rw [hsalt', hin', hsalt, hin, hmvk] at hnew
  exact opens_torn_iff hcold hold hcnew hnew hopenOld hopenNew hsame

/-! ## A v3 vault cut in the middle -/

/-- The administrator's vault after the upgrade to header v3. -/
def upgradedVault : DeniableVault × Installed :=
  [.upgrade, .persist 31 none].foldl (DeniableVault.track fun _ => true)
    (DeniableVault.created adminHeader 7 5 0 default,
      Installed.put (fun _ => none) 0 (some (adminPhrase, ⟨[], none, []⟩)))

/-- The same with a security key enrolled in slot 1, not yet written. -/
def keyedVault : DeniableVault × Installed :=
  [.enroll 1 (securityKey 1) (keyMaterial 1) ⟨11, 12⟩].foldl
    (DeniableVault.track fun _ => true) upgradedVault

def keyedState : DeniableState :=
  { keyedVault.1.den with
    bytes := { keyedVault.1.den.bytes with
      inner := .box ⟨5, 7, 32, default, some ⟨2, keyedVault.1.den.bytes.slots⟩⟩ }
    v3 := some ⟨2, keyedVault.1.den.bytes.slots⟩ }

/-- The sectors of slot 1 reached the disk and those of the inner header did
not: the administrator's untouched slot opens the old header and the new one,
and nothing opens what is left. -/
theorem torn_v3_header_bricks :
    keyedVault.1.den.resealed keyedVault.1.mvk 32 = .ok keyedState ∧
      upgradedVault.1.disk.slots 0 = keyedState.bytes.slots 0 ∧
      (deniableOpen (fun _ => true) upgradedVault.1.disk adminPhrase
        (some .passphrase)).isOk = true ∧
      (deniableOpen (fun _ => true) keyedState.bytes adminPhrase
        (some .passphrase)).isOk = true ∧
      (deniableOpen (fun _ => true)
        (DeniableHeader.torn (fun n => decide (8 ≤ n ∧ n ≤ 16)) upgradedVault.1.disk
          keyedState.bytes) adminPhrase (some .passphrase)).isOk = false := by
  refine ⟨rfl, rfl, ?_, ?_, ?_⟩ <;> decide +kernel

/-- Where every sector reached the disk the administrator still comes in. -/
theorem whole_v3_header_opens :
    ∃ r, deniableOpen (fun _ => true)
      (DeniableHeader.torn (fun _ => true) upgradedVault.1.disk keyedState.bytes) adminPhrase
      (some adminPhrase.kindTag) = .ok r := by
  have hcreate : createWithCredentialV2 (fun _ => true) adminPhrase ⟨[], none, []⟩ 0 default 7 5 3
      (fun i => i.val) ⟨1, 2⟩ = .ok adminHeader := rfl
  refine (torn_deniable_header_opens_iff hcreate [.upgrade, .persist 31 none]
    [.enroll 1 (securityKey 1) (keyMaterial 1) ⟨11, 12⟩] upgradedVault.1 keyedVault.1
    upgradedVault.2 keyedVault.2 rfl rfl ?_ rfl 32 keyedState rfl (fun _ => true) adminPhrase 0
    ⟨_, _, rfl, rfl⟩ ⟨_, _, rfl, rfl⟩ rfl).2 ?_
  · intro op hop
    rw [List.mem_singleton] at hop
    subst hop
    rfl
  · exact .inr ⟨by decide +kernel, .inr (by decide +kernel)⟩

end Luksbox
