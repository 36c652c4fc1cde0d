import Luksbox.Model.Deniable
import Luksbox.Model.SlotOps
import Luksbox.Proofs.Regions

/-!
# A standard header write that is cut short

`write_standard_header` replaces the mirror with the new bytes and then
overwrites the live header. The mirror is replaced by a rename; of the live
header any of the sixteen sectors may have reached the disk when the power goes.

An open takes the live header if it parses, and nothing but the live header
then: only where it does not parse is the mirror asked. What keeps a mixture of
the two headers from being taken for a header is the tag in the last 32 bytes,
which lie in one sector, so the tag of a mixture is the old one or the new one
and belongs to no other message.
-/

namespace Luksbox.Core

open Lib

/-- The live header when the sectors in `applied` have been overwritten. -/
def mixSectors (applied : Nat → Bool) (old new : Buf 8192) : Buf 8192 := fun i =>
  if applied (i.val / sectorSize) then new i else old i

/-- Where a crash stopped the write. -/
inductive HeaderCrash where
  | beforeMirror
  | afterMirror (applied : Nat → Bool)

/-- The vault file and the mirror after the crash; `data` is what follows the
header in the vault. -/
def HeaderCrash.files (data : List UInt8) (old new : Buf 8192) : HeaderCrash → VaultFiles
  | .beforeMirror => ⟨old.toList ++ data, none, some old.toList⟩
  | .afterMirror applied => ⟨(mixSectors applied old new).toList ++ data, none, some new.toList⟩

/-- The header bytes in the vault file. -/
def HeaderCrash.live (old new : Buf 8192) : HeaderCrash → Buf 8192
  | .beforeMirror => old
  | .afterMirror applied => mixSectors applied old new

def HeaderCrash.mirror (old new : Buf 8192) : HeaderCrash → Buf 8192
  | .beforeMirror => old
  | .afterMirror _ => new

/-- What the mirror decodes to. -/
def HeaderCrash.mirrored (old new : Header) : HeaderCrash → Header
  | .beforeMirror => old
  | .afterMirror _ => new

/-- The vault after the user has put the mirror's bytes over the live header. -/
def HeaderCrash.restored (data : List UInt8) (old new : Buf 8192) (crash : HeaderCrash) :
    VaultFiles :=
  ⟨(crash.mirror old new).toList ++ data, none, some (crash.mirror old new).toList⟩

/-- No tag but that of the same key and message is one of the tags of the log. -/
def TagsOnly (c : Crypto) (log : List (Key × List UInt8)) : Prop :=
  ∀ key msg entry, entry ∈ log → c.hmac key msg = c.hmac entry.1 entry.2 → (key, msg) = entry

/-- The key and the message of the tag of a header. -/
def Header.tagged (c : Crypto) (h : Header) (mvk : Key) (bytes : Buf 8192) : Key × List UInt8 :=
  (h.macKey c mvk, bytes.read 0 offHmac)

section Bytes

variable {a b : Buf 8192} {applied : Nat → Bool} {data : List UInt8}

theorem get_mixSectors {i : Nat} :
    (mixSectors applied a b).get i = if applied (i / sectorSize) then b.get i else a.get i := by
  unfold Buf.get mixSectors
  split
  · rfl
  · split <;> rfl

theorem read_congr {a b : Buf 8192} {lo len : Nat}
    (h : ∀ i, lo ≤ i → i < lo + len → a.get i = b.get i) : a.read lo len = b.read lo len := by
  unfold Buf.read
  refine List.map_congr_left fun i hi => ?_
  rw [List.mem_range'_1] at hi
  exact h i hi.1 hi.2

/-- The tag is in the last sector. -/
theorem read_tag_mixSectors :
    (mixSectors applied a b).read offHmac 32 =
      if applied 15 then b.read offHmac 32 else a.read offHmac 32 := by
  have hsector : ∀ i, offHmac ≤ i → i < offHmac + 32 → i / sectorSize = 15 := by
    intro i hlo hhi
    unfold offHmac at hlo hhi
    unfold sectorSize
    omega
  split
  next h =>
    refine read_congr fun i hlo hhi => ?_
    rw [get_mixSectors, hsector i hlo hhi, if_pos h]
  next h =>
    refine read_congr fun i hlo hhi => ?_
    rw [get_mixSectors, hsector i hlo hhi, if_neg h]

theorem get_eq_of_read_eq {lo len i : Nat} (h : a.read lo len = b.read lo len) (hlo : lo ≤ i)
    (hhi : i < lo + len) : a.get i = b.get i := by
  have ha : i - lo < (a.read lo len).length := by rw [Buf.read_length]; omega
  have hb : i - lo < (b.read lo len).length := by rw [Buf.read_length]; omega
  have heq : (a.read lo len)[i - lo] = (b.read lo len)[i - lo] := by simp only [h]
  rw [Buf.read_getElem, Buf.read_getElem, Nat.add_sub_cancel' hlo] at heq
  exact heq

/-- A header is its message and its tag. -/
theorem eq_of_message_tag (hmsg : a.read 0 offHmac = b.read 0 offHmac)
    (htag : a.read offHmac 32 = b.read offHmac 32) : a = b := by
  funext i
  have hget : a.get i.val = b.get i.val := by
    by_cases hi : i.val < offHmac
    · exact get_eq_of_read_eq hmsg (Nat.zero_le _) (by omega)
    · have := i.isLt
      exact get_eq_of_read_eq htag (by omega) (by unfold offHmac; omega)
  unfold Buf.get at hget
  rw [dif_pos i.isLt, dif_pos i.isLt] at hget
  exact hget

theorem bufOf_append : bufOf (a.toList ++ data) = a := by
  funext i
  have hi : i.val < a.toList.length := by
    rw [Buf.toList_length]
    exact i.isLt
  have hlist : (a.toList ++ data).getD i.val 0 = a.toList.getD i.val 0 := by
    rw [List.getD_eq_getElem?_getD, List.getD_eq_getElem?_getD, List.getElem?_append_left hi]
  show (a.toList ++ data).getD i.val 0 = a i
  rw [hlist]
  exact congrFun (bufOf_toList a) i

end Bytes

/-! ## What an open does with the files -/

section Open

variable {c : Crypto} {f : VaultFiles} {unlock : Header → Buf 8192 → Except OpenError Key}
  {a b : Buf 8192} {data : List UInt8} {h : Header} {mvk : Key} {material : UnlockMaterial}
  {o : Opened}

/-- The loader sees the first 8192 bytes of an inline vault. -/
theorem loadLockedHeader_eq (mirror : Option (List UInt8)) :
    loadLockedHeader ⟨a.toList ++ data, none, mirror⟩
      = liftCrypto (Header.fromBytes a) >>= fun header =>
          if header.metadataOffset.toNat < headerSize ∨ header.dataOffset.toNat < headerSize then
            .error (.crypto .invalidField)
          else .ok (a, header) := by
  have hlen : ¬ (a.toList ++ data).length < headerSize := by
    rw [List.length_append, Buf.toList_length]
    unfold headerSize
    omega
  unfold loadLockedHeader readHeaderBytes VaultFiles.storage
  simp only [Option.getD_none, if_neg hlen, ok_bind, bufOf_append, true_and]

theorem loadLockedHeader_live {mirror : Option (List UInt8)} {bytes : Buf 8192}
    (hok : loadLockedHeader ⟨a.toList ++ data, none, mirror⟩ = .ok (bytes, h)) :
    bytes = a ∧ Header.fromBytes a = .ok h := by
  rw [loadLockedHeader_eq] at hok
  obtain ⟨header, hparse, hok⟩ := except_bind_eq_ok.mp hok
  split at hok
  · cases hok
  · cases hok
    exact ⟨rfl, liftCrypto_ok.mp hparse⟩

theorem openLocked_live {bytes : Buf 8192} (hload : loadLockedHeader f = .ok (bytes, h))
    (hok : openLockedWithHeaderRecovery f unlock = .ok o) :
    o.header = h ∧ unlock h bytes = .ok o.mvk := by
  unfold openLockedWithHeaderRecovery at hok
  rw [hload] at hok
  obtain ⟨mvk, hunlock, hok⟩ := except_bind_eq_ok.mp hok
  cases hok
  exact ⟨rfl, hunlock⟩

/-- A mirror that verifies opens the vault with every material that yields the
key, unless a live header is there. -/
theorem openContainer_mirror {e : OpenError} (hload : loadLockedHeader f = .error e)
    (hmirror : f.mirror = some b.toList) (hparse : Header.fromBytes b = .ok h)
    (hverify : h.verifyHmac c b mvk = .ok ()) (hunlock : tryUnlock c h material = .ok mvk) :
    openContainer c f material = .ok ⟨f.storage, h, mvk, true⟩ := by
  refine openLocked_mirror hload ?_
  have hlen : ¬ b.toList.length ≠ headerSize := by
    rw [Buf.toList_length]
    exact fun hne => hne rfl
  unfold tryUnlockViaMirror
  rw [hmirror]
  simp only [if_neg hlen, bufOf_toList, hparse, liftCrypto, ok_bind,
    unlockAndVerify_iff.mpr ⟨hunlock, hverify⟩]

theorem openContainer_live {bytes : Buf 8192} (hload : loadLockedHeader f = .ok (bytes, h))
    (hverify : h.verifyHmac c bytes mvk = .ok ()) (hunlock : tryUnlock c h material = .ok mvk) :
    openContainer c f material = .ok ⟨f.storage, h, mvk, false⟩ := by
  unfold openContainer openLockedWithHeaderRecovery
  rw [hload]
  simp only [unlockAndVerify_iff.mpr ⟨hunlock, hverify⟩, ok_bind]

theorem verifyHmac_ok :
    h.verifyHmac c a mvk = .ok ()
      ↔ (c.hmac (h.macKey c mvk) (a.read 0 offHmac)).val = a.read offHmac 32 := by
  unfold Header.verifyHmac
  split
  next heq => exact ⟨fun _ => heq, fun _ => rfl⟩
  next hne =>
    constructor
    · intro hok
      cases hok
    · exact fun heq => absurd heq hne

section Tags

variable {g : Header} {log : List (Key × List UInt8)} {k : Key}

/-- Bytes that verify and have the tag of a logged header have its key and its
message. -/
theorem logged_of_verifyHmac (hideal : TagsOnly c log) (hlog : g.tagged c mvk b ∈ log)
    (hb : g.verifyHmac c b mvk = .ok ()) (ha : h.verifyHmac c a k = .ok ())
    (htag : a.read offHmac 32 = b.read offHmac 32) :
    (h.macKey c k, a.read 0 offHmac) = g.tagged c mvk b := by
  refine hideal _ _ _ hlog (Subtype.ext ?_)
  show (c.hmac (h.macKey c k) (a.read 0 offHmac)).val
    = (c.hmac (g.macKey c mvk) (b.read 0 offHmac)).val
  rw [verifyHmac_ok.mp ha, verifyHmac_ok.mp hb, htag]

theorem eq_of_verifyHmac (hideal : TagsOnly c log) (hlog : g.tagged c mvk b ∈ log)
    (hb : g.verifyHmac c b mvk = .ok ()) (ha : h.verifyHmac c a k = .ok ())
    (htag : a.read offHmac 32 = b.read offHmac 32) : a = b := by
  have hlogged := logged_of_verifyHmac hideal hlog hb ha htag
  exact eq_of_message_tag (congrArg Prod.snd hlogged) htag

/-- Under another key the bytes of a logged header do not verify. -/
theorem verifyHmac_otherKey (hideal : TagsOnly c log) (hlog : g.tagged c mvk a ∈ log)
    (ha : g.verifyHmac c a mvk = .ok ()) (hne : h.macKey c k ≠ g.macKey c mvk) :
    h.verifyHmac c a k ≠ .ok () := by
  intro hok
  have hlogged := logged_of_verifyHmac hideal hlog ha hok rfl
  exact hne (congrArg Prod.fst hlogged)

end Tags

end Open

/-! ## The keys the dispatcher returns -/

/-- Every box in a slot of the header opens to this key only. -/
def SlotsWrap (c : Crypto) (h : Header) (mvk : Key) : Prop :=
  ∀ i kek m, (h.keyslots i).unwrapMvk c h.cipherSuite kek h.headerSalt = .ok m → m = mvk

/-- The material is for a slot that derives its key and has no box: nothing is
compared there, and a wrong secret gives a wrong key. -/
def DerivesKey (c : Crypto) (h : Header) (material : UnlockMaterial) (k : Key) : Prop :=
  ∃ i passphrase hmacSecret,
    material = .fido2 passphrase (h.keyslots i).fido2CredId hmacSecret
      ∧ (h.keyslots i).kind = .fido2DerivedMvk
      ∧ k = c.deriveMvkFromFido2 (h.keyslots i).fido2HmacSalt hmacSecret

section Keys

variable {c : Crypto} {h : Header} {material : UnlockMaterial} {k mvk : Key} {i : Fin 8}

theorem some_of_ite_none {α : Type} {p : Prop} [Decidable p] {x : Option α} {a : α}
    (h : (if p then none else x) = some a) : ¬ p ∧ x = some a := by
  split at h
  · cases h
  next hp => exact ⟨hp, h⟩

/-- A key comes out of a box, or it is derived and stands in none. -/
theorem attempt_ok (hok : attempt c h material i = some (.ok k)) :
    (∃ kek, (h.keyslots i).unwrapMvk c h.cipherSuite kek h.headerSalt = .ok k)
      ∨ DerivesKey c h material k := by
  cases material with
  | passphrase pw =>
      obtain ⟨-, hok⟩ := some_of_ite_none hok
      obtain ⟨-, hok⟩ := except_ite_eq_ok.mp (Option.some.inj hok)
      obtain ⟨kek, -, hbox⟩ := except_bind_eq_ok.mp hok
      exact Or.inl ⟨kek, hbox⟩
  | fido2 passphrase credId hmacSecret =>
      obtain ⟨hcred, hok⟩ := some_of_ite_none hok
      split at hok
      · obtain ⟨-, hok⟩ := except_ite_eq_ok.mp (Option.some.inj hok)
        obtain ⟨kek, -, hbox⟩ := except_bind_eq_ok.mp hok
        exact Or.inl ⟨kek, hbox⟩
      · split at hok
        next hkind =>
          obtain ⟨-, hok⟩ := except_ite_eq_ok.mp (Option.some.inj hok)
          rw [← not_not.mp hcred]
          exact Or.inr ⟨i, passphrase, hmacSecret, rfl, hkind, (Except.ok.inj hok).symm⟩
        · cases hok
  | hybridPqPassphrase passphrase pqShared =>
      obtain ⟨-, hok⟩ := some_of_ite_none hok
      obtain ⟨-, hok⟩ := except_ite_eq_ok.mp (Option.some.inj hok)
      obtain ⟨kek, -, hbox⟩ := except_bind_eq_ok.mp hok
      exact Or.inl ⟨kek, hbox⟩
  | hybridPqFido2 passphrase credId hmacSecret pqShared =>
      obtain ⟨-, hok⟩ := some_of_ite_none hok
      obtain ⟨-, hok⟩ := some_of_ite_none hok
      obtain ⟨-, hok⟩ := except_ite_eq_ok.mp (Option.some.inj hok)
      obtain ⟨kek, -, hbox⟩ := except_bind_eq_ok.mp hok
      exact Or.inl ⟨kek, hbox⟩
  | tpm2 unsealBlob =>
      obtain ⟨-, hok⟩ := some_of_ite_none hok
      obtain ⟨blob, -, hok⟩ := Option.bind_eq_some_iff.mp hok
      obtain ⟨kek, -, hok⟩ := Option.bind_eq_some_iff.mp hok
      obtain ⟨-, hbox⟩ := except_ite_eq_ok.mp (Option.some.inj hok)
      exact Or.inl ⟨kek, hbox⟩
  | tpm2Fido2 unsealBlob credId hmacSecret =>
      obtain ⟨-, hok⟩ := some_of_ite_none hok
      obtain ⟨cred, -, hok⟩ := Option.bind_eq_some_iff.mp hok
      obtain ⟨-, hok⟩ := some_of_ite_none hok
      obtain ⟨blob, -, hok⟩ := Option.bind_eq_some_iff.mp hok
      obtain ⟨tpm, -, hok⟩ := Option.bind_eq_some_iff.mp hok
      obtain ⟨-, hbox⟩ := except_ite_eq_ok.mp (Option.some.inj hok)
      exact Or.inl ⟨_, hbox⟩
  | hybridPqTpm2 unsealBlob pqShared =>
      obtain ⟨-, hok⟩ := some_of_ite_none hok
      obtain ⟨blob, -, hok⟩ := Option.bind_eq_some_iff.mp hok
      obtain ⟨tpm, -, hok⟩ := Option.bind_eq_some_iff.mp hok
      obtain ⟨-, hbox⟩ := except_ite_eq_ok.mp (Option.some.inj hok)
      exact Or.inl ⟨_, hbox⟩
  | hybridPqTpm2Fido2 unsealBlob credId hmacSecret pqShared =>
      obtain ⟨-, hok⟩ := some_of_ite_none hok
      obtain ⟨cred, -, hok⟩ := Option.bind_eq_some_iff.mp hok
      obtain ⟨-, hok⟩ := some_of_ite_none hok
      obtain ⟨blob, -, hok⟩ := Option.bind_eq_some_iff.mp hok
      obtain ⟨tpm, -, hok⟩ := Option.bind_eq_some_iff.mp hok
      obtain ⟨-, hbox⟩ := except_ite_eq_ok.mp (Option.some.inj hok)
      exact Or.inl ⟨_, hbox⟩
  | sep unsealBlob hmacSecret passphrase pqShared =>
      obtain ⟨-, hok⟩ := some_of_ite_none hok
      obtain ⟨-, hok⟩ := some_of_ite_none hok
      obtain ⟨blob, -, hok⟩ := Option.bind_eq_some_iff.mp hok
      obtain ⟨shared, -, hok⟩ := Option.bind_eq_some_iff.mp hok
      obtain ⟨⟨⟩, -, hok⟩ := except_bind_eq_ok.mp (Option.some.inj hok)
      obtain ⟨kek, -, hbox⟩ := except_bind_eq_ok.mp hok
      exact Or.inl ⟨kek, hbox⟩

theorem tryUnlock_key (hwrap : SlotsWrap c h mvk) (hok : tryUnlock c h material = .ok k) :
    k = mvk ∨ DerivesKey c h material k := by
  obtain ⟨i, -, hi⟩ := (tryUnlock_ok_iff k).mp hok
  rcases attempt_ok (attempt_ok_iff.mpr hi) with ⟨kek, hbox⟩ | hderived
  · exact Or.inl (hwrap i kek k hbox)
  · exact Or.inr hderived

end Keys

/-! ## The crash -/

section Crash

variable {c : Crypto} {data : List UInt8} {live new : Buf 8192} {oldHeader newHeader : Header}
  {mvk : Key} {crash : HeaderCrash} {material : UnlockMaterial} {o : Opened}

theorem HeaderCrash.files_eq :
    crash.files data live new
      = ⟨(crash.live live new).toList ++ data, none, some (crash.mirror live new).toList⟩ := by
  cases crash <;> rfl

theorem HeaderCrash.live_tag (crash : HeaderCrash) (live new : Buf 8192) :
    (crash.live live new).read offHmac 32 = live.read offHmac 32
      ∨ (crash.live live new).read offHmac 32 = new.read offHmac 32 := by
  cases crash with
  | beforeMirror => exact Or.inl rfl
  | afterMirror applied =>
      unfold HeaderCrash.live
      simp only [read_tag_mixSectors]
      split
      · exact Or.inr rfl
      · exact Or.inl rfl

/-- Whatever sectors arrived, a live header that verifies is the old one or the
new one. -/
theorem HeaderCrash.live_eq {h : Header} {k : Key}
    (hold : oldHeader.verifyHmac c live mvk = .ok ())
    (hnew : newHeader.verifyHmac c new mvk = .ok ())
    (hideal : TagsOnly c [oldHeader.tagged c mvk live, newHeader.tagged c mvk new])
    (hverify : h.verifyHmac c (crash.live live new) k = .ok ()) :
    crash.live live new = live ∨ crash.live live new = new := by
  rcases crash.live_tag live new with htag | htag
  · exact Or.inl (eq_of_verifyHmac hideal List.mem_cons_self hold hverify htag)
  · exact Or.inr (eq_of_verifyHmac hideal (List.mem_cons_of_mem _ List.mem_cons_self) hnew
      hverify htag)

theorem HeaderCrash.mirror_parses (hold : Header.fromBytes live = .ok oldHeader)
    (hnew : Header.fromBytes new = .ok newHeader) :
    Header.fromBytes (crash.mirror live new) = .ok (crash.mirrored oldHeader newHeader) := by
  cases crash with
  | beforeMirror => exact hold
  | afterMirror applied => exact hnew

theorem HeaderCrash.mirror_verifies (hold : oldHeader.verifyHmac c live mvk = .ok ())
    (hnew : newHeader.verifyHmac c new mvk = .ok ()) :
    (crash.mirrored oldHeader newHeader).verifyHmac c (crash.mirror live new) mvk = .ok () := by
  cases crash with
  | beforeMirror => exact hold
  | afterMirror applied => exact hnew

theorem loadLockedHeader_error {a : Buf 8192} {mirror : Option (List UInt8)}
    (hnone : ∀ h, Header.fromBytes a ≠ .ok h) :
    ∃ e, loadLockedHeader ⟨a.toList ++ data, none, mirror⟩ = .error e := by
  rw [loadLockedHeader_eq]
  cases hparse : Header.fromBytes a with
  | error e => exact ⟨.crypto e, rfl⟩
  | ok h => exact absurd hparse (hnone h)

theorem opened_old_or_new (hold : Header.fromBytes live = .ok oldHeader)
    (hauth : oldHeader.verifyHmac c live mvk = .ok ())
    (hnew : Header.fromBytes new = .ok newHeader) {g : Header}
    (hg : g.verifyHmac c new mvk = .ok ())
    (hideal : TagsOnly c [oldHeader.tagged c mvk live, g.tagged c mvk new])
    (hok : openContainer c (crash.files data live new) material = .ok o) :
    o.header = oldHeader ∨ o.header = newHeader := by
  rw [HeaderCrash.files_eq] at hok
  obtain ⟨-, ⟨bytes, hload⟩ | ⟨-, bytes, hmirror, hparse⟩⟩ := openLocked_cases hok
  · obtain ⟨rfl, hparse⟩ := loadLockedHeader_live hload
    obtain ⟨-, hverify⟩ := unlockAndVerify_iff.mp (openLocked_live hload hok).2
    rcases HeaderCrash.live_eq hauth hg hideal hverify with heq | heq
    · rw [heq, hold] at hparse
      exact Or.inl (Except.ok.inj hparse).symm
    · rw [heq, hnew] at hparse
      exact Or.inr (Except.ok.inj hparse).symm
  · cases hmirror
    rw [bufOf_toList, crash.mirror_parses hold hnew] at hparse
    rw [← Except.ok.inj hparse]
    cases crash with
    | beforeMirror => exact Or.inl rfl
    | afterMirror applied => exact Or.inr rfl

/-- Where the live header is lost, the mirror opens the vault. -/
theorem torn_opens (hold : Header.fromBytes live = .ok oldHeader)
    (hnew : Header.fromBytes new = .ok newHeader)
    (hverify : newHeader.verifyHmac c new mvk = .ok ())
    (hlive : ∀ h, Header.fromBytes (crash.live live new) ≠ .ok h)
    (hunlock : tryUnlock c newHeader material = .ok mvk) :
    openContainer c (crash.files data live new) material
      = .ok ⟨.inline, newHeader, mvk, true⟩ := by
  cases crash with
  | beforeMirror => exact absurd hold (hlive oldHeader)
  | afterMirror applied =>
      obtain ⟨e, hload⟩ := loadLockedHeader_error hlive
      exact openContainer_mirror hload rfl hnew hverify hunlock

/-- The bytes of an intact mirror over the live header open the vault: as the
live header, or as the mirror if the loader does not like the regions. -/
theorem restored_opens {a : Buf 8192} {h : Header} (hparse : Header.fromBytes a = .ok h)
    (hverify : h.verifyHmac c a mvk = .ok ()) (hunlock : tryUnlock c h material = .ok mvk) :
    ∃ dirty, openContainer c ⟨a.toList ++ data, none, some a.toList⟩ material
      = .ok ⟨.inline, h, mvk, dirty⟩ := by
  cases hload : loadLockedHeader ⟨a.toList ++ data, none, some a.toList⟩ with
  | error e => exact ⟨true, openContainer_mirror hload rfl hparse hverify hunlock⟩
  | ok x =>
      obtain ⟨bytes, header⟩ := x
      obtain ⟨rfl, hparse'⟩ := loadLockedHeader_live hload
      rw [hparse] at hparse'
      cases hparse'
      exact ⟨false, openContainer_live hload hverify hunlock⟩

/-- A header decoded from the bytes of another has its key for the tag. -/
theorem verifyHmac_decoded {h written : Header} {padding : HeaderPadding}
    (hok : Header.fromBytes (h.toBytes c mvk padding) = .ok written) :
    written.verifyHmac c (h.toBytes c mvk padding) mvk = .ok () := by
  have hsalt : written.headerSalt = h.headerSalt := by
    rw [← (Header.fromBytes_parsed hok).salt, Header.salt_toBytes]
  have hkey : written.macKey c mvk = h.macKey c mvk := by
    unfold Header.macKey
    rw [hsalt]
  have hverify := h.verifyHmac_toBytes c mvk padding
  unfold Header.verifyHmac at hverify ⊢
  rw [hkey]
  exact hverify

theorem decoded_eq_iff {h written : Header} {padding : HeaderPadding}
    (hok : Header.fromBytes (h.toBytes c mvk padding) = .ok written) :
    written = h ↔ h.WellFormed := by
  constructor
  · rintro rfl
    exact Header.fromBytes_wellFormed hok
  · intro hw
    rw [Header.fromBytes_toBytes hw] at hok
    exact (Except.ok.inj hok).symm

end Crash

/-- The write of the header `new` to the vault of `old`, whose live header is
`live`: the old bytes verify, and `written` is what the new ones decode to. -/
structure HeaderWrite (c : Crypto) (live : Buf 8192) (old new written : Header) (mvk : Key)
    (padding : HeaderPadding) : Prop where
  old_parses : Header.fromBytes live = .ok old
  old_verifies : old.verifyHmac c live mvk = .ok ()
  new_parses : Header.fromBytes (new.markMirror.toBytes c mvk padding) = .ok written
  tags_ideal : TagsOnly c [old.tagged c mvk live,
    new.markMirror.tagged c mvk (new.markMirror.toBytes c mvk padding)]

/-- After a crash at any point of the write, an open returns one of the two
headers. It goes through the mirror where the live header does not parse, and the
bytes of the mirror over the live header open the vault, with every material from
which the dispatcher obtains the key; if the boxes open to nothing else, that is
all it accepts but secrets for a derived key. -/
theorem torn_header_recovers (c : Crypto) (data : List UInt8) (live : Buf 8192)
    (old new written : Header) (mvk : Key) (padding : HeaderPadding) (crash : HeaderCrash)
    (w : HeaderWrite c live old new written mvk padding) :
    (written = new.markMirror ↔ new.markMirror.WellFormed)
      ∧ (∀ material o,
          openContainer c (crash.files data live (new.markMirror.toBytes c mvk padding)) material
            = .ok o → o.header = old ∨ o.header = written)
      ∧ (∀ material,
          (∀ h, Header.fromBytes (crash.live live (new.markMirror.toBytes c mvk padding)) ≠ .ok h) →
          tryUnlock c written material = .ok mvk →
          openContainer c (crash.files data live (new.markMirror.toBytes c mvk padding)) material
            = .ok ⟨.inline, written, mvk, true⟩)
      ∧ (∀ material, tryUnlock c (crash.mirrored old written) material = .ok mvk →
          ∃ dirty, openContainer c
              (crash.restored data live (new.markMirror.toBytes c mvk padding)) material
            = .ok ⟨.inline, crash.mirrored old written, mvk, dirty⟩)
      ∧ ∀ h ∈ [old, written], SlotsWrap c h mvk → ∀ material k, tryUnlock c h material = .ok k →
          k = mvk ∨ DerivesKey c h material k := by
  have hverify := verifyHmac_decoded w.new_parses
  refine ⟨decoded_eq_iff w.new_parses, fun material o hok => ?_, fun material hlive hunlock => ?_,
    fun material hunlock => ?_, fun h _ hwrap material k hok => tryUnlock_key hwrap hok⟩
  · exact opened_old_or_new w.old_parses w.old_verifies w.new_parses
      (Header.verifyHmac_toBytes _ _ _ _) w.tags_ideal hok
  · exact torn_opens w.old_parses w.new_parses hverify hlive hunlock
  · exact restored_opens (crash.mirror_parses w.old_parses w.new_parses)
      (crash.mirror_verifies w.old_verifies hverify) hunlock

/-! ## A slot that derives its key -/

/-- `plainCrypto` with a tag for each entry of the log and one more for all
else. -/
def taggingCrypto (log : List (Key × List UInt8)) : Crypto :=
  { plainCrypto with
    hmac := fun key msg => firstBytes 32 [UInt8.ofNat (log.idxOf (key, msg))] }

theorem taggingCrypto_tagsOnly {log : List (Key × List UInt8)} (hlen : log.length < 256) :
    TagsOnly (taggingCrypto log) log := by
  intro key msg entry hmem heq
  have hhead : UInt8.ofNat (log.idxOf (key, msg)) = UInt8.ofNat (log.idxOf entry) :=
    (List.cons.inj (congrArg Subtype.val heq)).1
  have hle : log.idxOf (key, msg) ≤ log.length := List.idxOf_le_length
  have hlt : log.idxOf entry < log.length := List.idxOf_lt_length_of_mem hmem
  have hidx : log.idxOf (key, msg) = log.idxOf entry := by
    have hnat := congrArg UInt8.toNat hhead
    rw [UInt8.toNat_ofNat_of_lt' (hle.trans_lt hlen),
      UInt8.toNat_ofNat_of_lt' (hlt.trans hlen)] at hnat
    exact hnat
  have hmem' : (key, msg) ∈ log := List.idxOf_lt_length_iff.mp (by omega)
  exact (List.idxOf_inj hmem').mp hidx

def zeroPadding : HeaderPadding := ⟨Bytes.zero 3968, fun _ _ => 0⟩

/-- The entry of a header in the log. -/
def Header.entry (h : Header) (mvk : Key) : Key × List UInt8 :=
  (h.macKey plainCrypto mvk, (h.serializeUnauth zeroPadding).read 0 offHmac)

theorem tagged_toBytes (h : Header) (mvk : Key) (log : List (Key × List UInt8)) :
    h.tagged (taggingCrypto log) mvk (h.toBytes (taggingCrypto log) mvk zeroPadding)
      = h.entry mvk := by
  unfold Header.tagged Header.entry Header.toBytes
  rw [Buf.read_put_outside _ (Or.inl (by decide)) (by decide)]
  rfl

def derivedSlot : Keyslot :=
  { Keyslot.empty with kind := .fido2DerivedMvk, aadVersion := aadVersionV4, fido2CredId := [1] }

/-- A header whose first slot derives the key. -/
def derivedHeader (version : UInt16) (flags : UInt32) (generation : UInt64) : Header :=
  { noSlots 8192 1056768 with
    versionMajor := version
    flags := flags
    headerGeneration := generation
    keyslots := fun i => if i = 0 then derivedSlot else Keyslot.empty }

def derivedMvk : Key := plainCrypto.deriveMvkFromFido2 (Bytes.zero 32) (firstBytes 32 [7])

def derivedMaterial (secret : UInt8) : UnlockMaterial := .fido2 none [1] (firstBytes 32 [secret])

theorem derivedHeader_wellFormed {version : UInt16} {flags : UInt32} {generation : UInt64}
    (hversion : version = versionMajorV2 ∧ generation = 0 ∨ version = versionMajorV3) :
    (derivedHeader version flags generation).WellFormed where
  version := by
    rcases hversion with ⟨h, -⟩ | h
    · exact Or.inr (Or.inl h)
    · exact Or.inr (Or.inr h)
  generation := by
    rcases hversion with ⟨-, h⟩ | rfl
    · exact fun _ => h
    · intro hno
      cases hno
  chunkSize := by
    show ¬ ((4096 : UInt32) < minChunkSize ∨ maxChunkSize < 4096)
    decide
  extents := by
    show (⟨8192, 1048576, 1056768⟩ : Header.Extents).check = .ok ()
    rfl
  slots := by
    intro i
    show (if i = 0 then _ else _ : Keyslot).WellFormed
    split
    · exact Or.inr ⟨by decide, by decide, by decide, by decide, fun _ => rfl, fun h _ => by cases h⟩
    · exact Or.inl rfl
  noBlobs := fun _ => rfl
  blobsFit := by
    show (1 : Nat) + 0 ≤ sepRegionLen
    decide

theorem tryUnlock_derived (log : List (Key × List UInt8)) (version : UInt16) (flags : UInt32)
    (generation : UInt64) (secret : UInt8) :
    tryUnlock (taggingCrypto log) (derivedHeader version flags generation) (derivedMaterial secret)
      = .ok (plainCrypto.deriveMvkFromFido2 (Bytes.zero 32) (firstBytes 32 [secret])) := by
  rfl

/-- Two headers and the log of their tags. -/
def logOf (old new : Header) : List (Key × List UInt8) :=
  [old.entry derivedMvk, new.entry derivedMvk]

def rawOf (old new h : Header) : Buf 8192 :=
  h.toBytes (taggingCrypto (logOf old new)) derivedMvk zeroPadding

theorem headerWrite_of {old new written : Header} (hold : old.WellFormed)
    (hmark : new.markMirror = new) (hnew : Header.fromBytes (rawOf old new new) = .ok written) :
    HeaderWrite (taggingCrypto (logOf old new)) (rawOf old new old) old new written derivedMvk
      zeroPadding where
  old_parses := Header.fromBytes_toBytes hold _ _ _
  old_verifies := Header.verifyHmac_toBytes _ _ _ _
  new_parses := by
    rw [hmark]
    exact hnew
  tags_ideal := by
    rw [hmark]
    unfold rawOf
    rw [tagged_toBytes, tagged_toBytes]
    have hlen : (logOf old new).length < 256 := by
      show 2 < 256
      decide
    exact taggingCrypto_tagsOnly hlen

theorem derivedHeader_markMirror (version : UInt16) (generation : UInt64) :
    (derivedHeader version Header.flagHasHeaderMirror generation).markMirror
      = derivedHeader version Header.flagHasHeaderMirror generation := by
  have hflag : (derivedHeader version Header.flagHasHeaderMirror generation).hasHeaderMirror
      = true := by
    show decide (Header.flagHasHeaderMirror &&& Header.flagHasHeaderMirror ≠ 0) = true
    decide
  unfold Header.markMirror
  refine if_neg fun h => ?_
  rw [hflag] at h
  cases h.2

/-- The generation goes up. -/
def derivedOld : Header := derivedHeader versionMajorV3 Header.flagHasHeaderMirror 4

def derivedNew : Header := derivedHeader versionMajorV3 Header.flagHasHeaderMirror 5

theorem derived_write :
    HeaderWrite (taggingCrypto (logOf derivedOld derivedNew))
      (rawOf derivedOld derivedNew derivedOld) derivedOld derivedNew derivedNew derivedMvk zeroPadding :=
  headerWrite_of (derivedHeader_wellFormed (Or.inr rfl)) (derivedHeader_markMirror _ _)
    (Header.fromBytes_toBytes (derivedHeader_wellFormed (Or.inr rfl)) _ _ _)

theorem torn_header_recovers_derived :
    ∃ dirty, openContainer (taggingCrypto (logOf derivedOld derivedNew))
        (HeaderCrash.restored [] (rawOf derivedOld derivedNew derivedOld)
          (rawOf derivedOld derivedNew derivedNew.markMirror)
          (.afterMirror fun sector => sector == 0)) (derivedMaterial 7)
      = .ok ⟨.inline, derivedNew, derivedMvk, dirty⟩ := by
  have htorn := torn_header_recovers (taggingCrypto (logOf derivedOld derivedNew)) []
    (rawOf derivedOld derivedNew derivedOld) derivedOld derivedNew derivedNew derivedMvk zeroPadding
    (.afterMirror fun sector => sector == 0) derived_write
  exact htorn.2.2.2.1 (derivedMaterial 7) (tryUnlock_derived _ _ _ _ 7)

theorem loadLockedHeader_inline {a : Buf 8192} {h : Header} (data : List UInt8)
    (mirror : Option (List UInt8)) (hparse : Header.fromBytes a = .ok h)
    (hin : ¬ (h.metadataOffset.toNat < headerSize ∨ h.dataOffset.toNat < headerSize)) :
    loadLockedHeader ⟨a.toList ++ data, none, mirror⟩ = .ok (a, h) := by
  rw [loadLockedHeader_eq, hparse]
  exact if_neg hin

/-- The intact header does not open with a wrong secret. -/
theorem wrong_secret_fails (o : Opened) :
    openContainer (taggingCrypto (logOf derivedOld derivedNew))
      (HeaderCrash.restored [] (rawOf derivedOld derivedNew derivedOld)
        (rawOf derivedOld derivedNew derivedNew.markMirror) .beforeMirror) (derivedMaterial 8)
      ≠ .ok o := by
  intro hok
  have hload := loadLockedHeader_inline [] (some (rawOf derivedOld derivedNew derivedOld).toList)
    derived_write.old_parses (by decide)
  obtain ⟨htry, hverify⟩ := unlockAndVerify_iff.mp (openLocked_live hload hok).2
  have hkey := Except.ok.inj ((tryUnlock_derived _ _ _ _ 8).symm.trans htry)
  rw [← hkey] at hverify
  exact verifyHmac_otherKey derived_write.tags_ideal List.mem_cons_self derived_write.old_verifies
    (by decide) hverify

/-- In memory this header has a generation, which its version does not write. -/
def looseNew : Header := derivedHeader versionMajorV2 Header.flagHasHeaderMirror 1

def looseRead : Header := derivedHeader versionMajorV2 Header.flagHasHeaderMirror 0

def looseOld : Header := derivedHeader versionMajorV2 (Header.flagHasHeaderMirror ||| 8) 0

theorem looseRaw_eq : rawOf looseOld looseNew looseNew = rawOf looseOld looseNew looseRead := by
  have hfields : looseNew.fixedFields = looseRead.fixedFields := rfl
  unfold rawOf Header.toBytes Header.serializeUnauth
  rw [hfields]
  rfl

theorem loose_write :
    HeaderWrite (taggingCrypto (logOf looseOld looseNew)) (rawOf looseOld looseNew looseOld)
      looseOld looseNew looseRead derivedMvk zeroPadding := by
  refine headerWrite_of (derivedHeader_wellFormed (Or.inl ⟨rfl, rfl⟩))
    (derivedHeader_markMirror _ _) ?_
  rw [looseRaw_eq]
  exact Header.fromBytes_toBytes (derivedHeader_wellFormed (Or.inl ⟨rfl, rfl⟩)) _ _ _

theorem loose_opens :
    openContainer (taggingCrypto (logOf looseOld looseNew))
        (HeaderCrash.files [] (rawOf looseOld looseNew looseOld)
          (rawOf looseOld looseNew looseNew.markMirror) (.afterMirror fun _ => true))
        (derivedMaterial 7)
      = .ok ⟨.inline, looseRead, derivedMvk, false⟩ := by
  have hload := loadLockedHeader_inline []
    (some (rawOf looseOld looseNew looseNew.markMirror).toList) loose_write.new_parses (by decide)
  exact openContainer_live hload (verifyHmac_decoded loose_write.new_parses)
    (tryUnlock_derived _ _ _ _ 7)

/-- The dispatcher accepts a wrong secret for a derived key, with which the intact
header does not open; and of a header in memory with a field that its version does
not write an open returns another one. -/
theorem wrong_secret_and_unwritten_field :
    (HeaderWrite (taggingCrypto (logOf derivedOld derivedNew))
        (rawOf derivedOld derivedNew derivedOld) derivedOld derivedNew derivedNew derivedMvk zeroPadding
      ∧ (∃ k, tryUnlock (taggingCrypto (logOf derivedOld derivedNew))
          (HeaderCrash.mirrored derivedOld derivedNew .beforeMirror) (derivedMaterial 8) = .ok k)
      ∧ ∀ o, openContainer (taggingCrypto (logOf derivedOld derivedNew))
          (HeaderCrash.restored [] (rawOf derivedOld derivedNew derivedOld)
            (rawOf derivedOld derivedNew derivedNew.markMirror) .beforeMirror) (derivedMaterial 8)
        ≠ .ok o)
    ∧ HeaderWrite (taggingCrypto (logOf looseOld looseNew)) (rawOf looseOld looseNew looseOld)
        looseOld looseNew looseRead derivedMvk zeroPadding
      ∧ ∃ o, openContainer (taggingCrypto (logOf looseOld looseNew))
            (HeaderCrash.files [] (rawOf looseOld looseNew looseOld)
              (rawOf looseOld looseNew looseNew.markMirror) (.afterMirror fun _ => true))
            (derivedMaterial 7) = .ok o
          ∧ o.header ≠ looseOld ∧ o.header ≠ looseNew.markMirror := by
  refine ⟨⟨derived_write, ⟨_, tryUnlock_derived _ _ _ _ 8⟩, wrong_secret_fails⟩, loose_write,
    _, loose_opens, fun heq => ?_, fun heq => ?_⟩
  · exact absurd (congrArg Header.flags heq) (by decide)
  · exact absurd (congrArg Header.headerGeneration heq) (by decide)

end Luksbox.Core
