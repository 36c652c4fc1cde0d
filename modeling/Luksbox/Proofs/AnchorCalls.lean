import Luksbox.Proofs.AnchorFile

/-!
# Anchors over a run

A vault makes anchors, advances them and reads them back, its commits fail where
they may, and someone else does as he likes with the files in between: he can
keep an old anchor, put it back later or somewhere else, or put anything else in
its place. What he cannot do is to make an HMAC or a box of his own
(`Unforged`).

Two things are kept next to the files. `made` lists what the vault has ever set
out to record, and `last` is what it last recorded at a path that nobody else
has touched since. Every call and every change from outside keeps `Log.Tells`:
what can be read at a path was made at some time, and it is the last thing made
where no one else has been.
-/

namespace Luksbox.Anchor

open Lib Luksbox.Core
open Pq (Files CommitFault SealsWithTag)

/-- What a call set out to record, and the text it put under its HMAC or into
its box. -/
structure Record where
  contents : AnchorContents
  text : List UInt8

structure Log where
  made : List Record
  last : String → Option AnchorContents

def Log.empty : Log := ⟨[], fun _ => none⟩

/-- A call that is to leave a file. `lands` tells whether its commit replaces
what is at the path. -/
structure Attempt where
  path : String
  contents : AnchorContents
  draws : Draws
  lands : Bool

namespace Anchored

variable {c : Crypto} {v : Anchored} {files : Files} {path : String} {file buf : List UInt8}
  {a a' : AnchorContents} {draws : Draws}

/-- A read from the bytes of the file on. -/
def readBytes (c : Crypto) (v : Anchored) (file : List UInt8) : Except Error AnchorContents :=
  match v.deniable with
  | some salt => deniableVerify c v.mvk salt v.cipherSuite file
  | none => verify c v.mvk v.headerSalt (file.take (anchorV2Size + 1))

/-- The bytes a write makes, in either format. -/
def build (c : Crypto) (v : Anchored) (a : AnchorContents) (draws : Draws) :
    Except Error (List UInt8) :=
  match v.deniable with
  | some salt => buildDeniableAnchorBuf c a v.mvk salt v.cipherSuite draws
  | none => .ok (buildAnchorBuf c a v.mvk v.headerSalt)

/-- The text of these bytes that is authenticated. -/
def text (v : Anchored) (a : AnchorContents) (draws : Draws) : Option (List UInt8) :=
  match v.deniable with
  | some _ => draws.padding.map (deniableAnchorPlaintext a)
  | none => some (body a)

/-- What a text says. -/
def Means (v : Anchored) (text : List UInt8) (a : AnchorContents) : Prop :=
  match v.deniable with
  | some _ => parseDeniable text = .ok a
  | none => text = body a

/-- The random bytes of a call do not look like the marker of a header
generation. -/
def Clear (v : Anchored) (a : AnchorContents) (draws : Draws) : Prop :=
  v.deniable.isSome → ∀ padding, draws.padding = some padding → Legible a padding

/-- A file of someone who has seen HMACs and boxes for these texts, and can make
none for another one. -/
def Unforged (c : Crypto) (v : Anchored) (texts : List (List UInt8)) (file : List UInt8) : Prop :=
  match v.deniable with
  | some salt => ∀ nonce ct pt, HasAt file 0 (nonce.val ++ ct) →
      c.aeadOpen v.cipherSuite (deniableAnchorKey c v.mvk salt) nonce (deniableAnchorAad salt) ct
        = some pt → pt ∈ texts
  | none => ∀ msg tag : List UInt8, file = msg ++ tag →
      tag = (computeMac c (anchorKey c v.mvk v.headerSalt) msg).val → msg ∈ texts

theorem readAnchor_of_file (h : files path = some file) :
    v.readAnchor c files path = v.readBytes c file := by
  unfold readAnchor readBytes deniableReadAndVerify readAndVerify
  cases v.deniable with
  | none => simp only [h]
  | some salt => simp only [h]

theorem readAnchor_ok : v.readAnchor c files path = .ok a
    ↔ ∃ file, files path = some file ∧ v.readBytes c file = .ok a := by
  constructor
  · intro h
    cases hfile : files path with
    | none =>
        unfold readAnchor deniableReadAndVerify readAndVerify at h
        rw [hfile] at h
        cases hd : v.deniable with
        | none => rw [hd] at h; cases h
        | some salt => rw [hd] at h; cases h
    | some file => exact ⟨file, rfl, readAnchor_of_file hfile ▸ h⟩
  · rintro ⟨file, hfile, h⟩
    rw [readAnchor_of_file hfile]
    exact h

theorem readAnchor_ne_panic : v.readAnchor c files path ≠ .error .panic := by
  unfold readAnchor deniableReadAndVerify readAndVerify
  cases v.deniable with
  | none =>
      cases files path with
      | none => exact nofun
      | some file => exact verify_ne_panic
  | some salt =>
      cases files path with
      | none => exact nofun
      | some file => exact deniableVerify_ne_panic

theorem Means.functional {t : List UInt8} (h : v.Means t a) (h' : v.Means t a') : a = a' := by
  unfold Means at h h'
  cases hd : v.deniable with
  | none =>
      rw [hd] at h h'
      exact body_injective (h.symm.trans h')
  | some salt =>
      rw [hd] at h h'
      exact Except.ok.inj (h.symm.trans h')

theorem text_means {t : List UInt8} (hclear : v.Clear a draws) (h : v.text a draws = some t) :
    v.Means t a := by
  unfold Clear at hclear
  unfold text at h
  unfold Means
  cases hd : v.deniable with
  | none =>
      rw [hd] at h
      exact (Option.some.inj h).symm
  | some salt =>
      rw [hd] at h hclear
      obtain ⟨padding, hpadding, rfl⟩ := Option.map_eq_some_iff.mp h
      exact parseDeniable_plaintext (hclear rfl padding hpadding)

theorem text_of_build (htag : ∀ suite, SealsWithTag c suite) (h : v.build c a draws = .ok buf) :
    ∃ t, v.text a draws = some t := by
  unfold build at h
  unfold text
  cases hd : v.deniable with
  | none => exact ⟨body a, rfl⟩
  | some salt =>
      rw [hd] at h
      obtain ⟨padding, _, _, _, hpadding, -⟩ := buildDeniableAnchorBuf_ok htag h
      exact ⟨_, congrArg (Option.map _) hpadding⟩

theorem readBytes_build (hc : c.OpensSealed) (htag : ∀ suite, SealsWithTag c suite) (hclear : v.Clear a draws)
    (h : v.build c a draws = .ok buf) : v.readBytes c buf = .ok a := by
  unfold Clear at hclear
  unfold build at h
  unfold readBytes
  cases hd : v.deniable with
  | none =>
      rw [hd] at h
      cases h
      have hread : readAndVerify c (fun _ => some (buildAnchorBuf c a v.mvk v.headerSalt)) ""
          v.mvk v.headerSalt = .ok a := readAndVerify_ok.mpr rfl
      exact hread
  | some salt =>
      rw [hd] at h hclear
      exact deniableVerify_built hc htag (hclear rfl) h

/-- What is read in a file from outside was made. -/
theorem Unforged.made {texts : List (List UInt8)} (h : v.Unforged c texts file)
    (hread : v.readBytes c file = .ok a) : ∃ t ∈ texts, v.Means t a := by
  unfold Unforged at h
  unfold readBytes at hread
  unfold Means
  cases hd : v.deniable with
  | none =>
      rw [hd] at h hread
      have hfile : readAndVerify c (fun _ => some file) "" v.mvk v.headerSalt = .ok a := hread
      exact ⟨body a, h _ _ (Option.some.inj (readAndVerify_ok.mp hfile)) rfl, rfl⟩
  | some salt =>
      rw [hd] at h hread
      obtain ⟨nonce, ct, pt, -, hat, -, hopen, hparse⟩ := deniableVerify_ok hread
      exact ⟨pt, h nonce ct pt hat hopen, hparse⟩

end Anchored

/-! ## The calls -/

namespace World

variable {c : Crypto} {w : World} {log : Log} {e : Event}

/-- What a step is to leave, if it is a write. -/
def attempt (w : World) : Event → Option Attempt
  | .initAnchor path generation draws fault =>
      some ⟨path, ⟨generation, w.vault.headerGeneration⟩, draws,
        (w.files path).isNone && decide (fault ≠ .before)⟩
  | .writeAnchor generation draws fault =>
      w.vault.anchorPath.map fun path =>
        ⟨path, ⟨generation, w.vault.headerGeneration⟩, draws, decide (fault ≠ .before)⟩
  | _ => none

/-- The log after a write. -/
def logWrite (c : Crypto) (w : World) (log : Log) (t : Attempt) : Log :=
  match w.vault.build c t.contents t.draws, w.vault.text t.contents t.draws with
  | .ok _, some text =>
      { made := ⟨t.contents, text⟩ :: log.made
        last := if t.lands then fun p => if p = t.path then some t.contents else log.last p
          else log.last }
  | _, _ => log

def logAfter (c : Crypto) (w : World) (log : Log) : Event → Log
  | .outside path _ => { log with last := fun p => if p = path then none else log.last p }
  | e => (w.attempt e).elim log (w.logWrite c log)

/-- What is assumed of a step: of the random bytes of a write, and of the files
of someone else. -/
def Fair (c : Crypto) (w : World) (log : Log) : Event → Prop
  | .outside _ bytes => ∀ file, bytes = some file →
      w.vault.Unforged c (log.made.map Record.text) file
  | e => ∀ t, w.attempt e = some t → w.vault.Clear t.contents t.draws

def RunsFair (c : Crypto) : World → Log → List Event → Prop
  | _, _, [] => True
  | w, log, e :: rest => w.Fair c log e ∧ RunsFair c (w.step c e) (w.logAfter c log e) rest

def logRun (c : Crypto) : World → Log → List Event → Log
  | _, log, [] => log
  | w, log, e :: rest => logRun c (w.step c e) (w.logAfter c log e) rest

end World

/-- The vault a step leaves is the same one, at other generations and with
another path. -/
structure SameVault (v v' : Anchored) : Prop where
  mvk : v'.mvk = v.mvk
  headerSalt : v'.headerSalt = v.headerSalt
  deniable : v'.deniable = v.deniable
  cipherSuite : v'.cipherSuite = v.cipherSuite

theorem commit_files {files : Files} {path : String} {buf : List UInt8} {fault : CommitFault} :
    (commit files path buf fault).2
      = if decide (fault ≠ .before) then files.put path buf else files := by
  unfold commit
  cases fault with
  | none => rfl
  | before => rfl
  | after => rfl

theorem commitNew_files {files : Files} {path : String} {buf : List UInt8} {fault : CommitFault} :
    (commitNew files path buf fault).2
      = if (files path).isNone && decide (fault ≠ .before) then files.put path buf else files := by
  unfold commitNew Files.atomicSecureCreateNew
  cases files path with
  | none => exact commit_files
  | some file => rfl

namespace Anchored

variable {c : Crypto} {v : Anchored} {files : Files} {path : String} {generation : UInt64}
  {draws : Draws} {fault : CommitFault}

/-- Both formats of the first write: the bytes, and then the commit. -/
theorem initAnchor_eq :
    v.initAnchor c files path generation draws fault
      = match v.build c ⟨generation, v.headerGeneration⟩ draws with
        | .error e => (.error e, files, v)
        | .ok buf =>
            match commitNew files path buf fault with
            | (.error e, files') => (.error e, files', v)
            | (.ok (), files') =>
                (.ok (), files',
                  { v with anchorPath := some path, anchoredMetadataGen := some generation }) := by
  unfold initAnchor build deniableWriteInitial writeInitial
  cases v.deniable with
  | none => rfl
  | some salt =>
      dsimp only
      cases buildDeniableAnchorBuf c ⟨generation, v.headerGeneration⟩ v.mvk salt v.cipherSuite
        draws with
      | error e => rfl
      | ok buf => rfl

theorem writeAnchor_eq (h : v.anchorPath = some path) :
    v.writeAnchor c files generation draws fault
      = match v.build c ⟨generation, v.headerGeneration⟩ draws with
        | .error e => (.error e, files, v)
        | .ok buf =>
            match commit files path buf fault with
            | (.error e, files') => (.error e, files', v)
            | (.ok (), files') =>
                (.ok (), files', { v with anchoredMetadataGen := some generation }) := by
  unfold writeAnchor build deniableWrite write
  rw [h]
  cases v.deniable with
  | none => rfl
  | some salt =>
      dsimp only
      cases buildDeniableAnchorBuf c ⟨generation, v.headerGeneration⟩ v.mvk salt v.cipherSuite
        draws with
      | error e => rfl
      | ok buf => rfl

end Anchored

namespace World

variable {c : Crypto} {w : World} {log : Log} {e : Event}

/-- What a write does to the files and to the container. -/
theorem step_attempt {t : Attempt} (h : w.attempt e = some t) :
    SameVault w.vault (w.step c e).vault
      ∧ (w.step c e).files =
        match w.vault.build c t.contents t.draws with
        | .error _ => w.files
        | .ok buf => if t.lands then w.files.put t.path buf else w.files := by
  have hsame : SameVault w.vault w.vault := ⟨rfl, rfl, rfl, rfl⟩
  cases e with
  | initAnchor path generation draws fault =>
      cases h
      unfold step
      dsimp only
      rw [Anchored.initAnchor_eq]
      cases w.vault.build c ⟨generation, w.vault.headerGeneration⟩ draws with
      | error e => exact ⟨hsame, rfl⟩
      | ok buf =>
          dsimp only
          rw [← commitNew_files]
          cases commitNew w.files path buf fault with
          | mk r files' =>
              cases r with
              | error e => exact ⟨hsame, rfl⟩
              | ok u => exact ⟨⟨rfl, rfl, rfl, rfl⟩, rfl⟩
  | writeAnchor generation draws fault =>
      obtain ⟨path, hpath, rfl⟩ := Option.map_eq_some_iff.mp h
      unfold step
      dsimp only
      rw [Anchored.writeAnchor_eq hpath]
      cases w.vault.build c ⟨generation, w.vault.headerGeneration⟩ draws with
      | error e => exact ⟨hsame, rfl⟩
      | ok buf =>
          dsimp only
          rw [← commit_files]
          cases commit w.files path buf fault with
          | mk r files' =>
              cases r with
              | error e => exact ⟨hsame, rfl⟩
              | ok u => exact ⟨⟨rfl, rfl, rfl, rfl⟩, rfl⟩
  | setAnchor path => cases h
  | header generation => cases h
  | outside path bytes => cases h

theorem setAnchor_same {v : Anchored} {files : Files} {path : Option String} :
    SameVault v (v.setAnchor c files path).2 := by
  unfold Anchored.setAnchor
  cases path with
  | none => exact ⟨rfl, rfl, rfl, rfl⟩
  | some p =>
      dsimp only
      cases v.readAnchor c files p with
      | error e => exact ⟨rfl, rfl, rfl, rfl⟩
      | ok a =>
          dsimp only
          cases v.headerHalf a with
          | error e => exact ⟨rfl, rfl, rfl, rfl⟩
          | ok u => exact ⟨rfl, rfl, rfl, rfl⟩

/-- A step that is neither a write nor someone else's leaves the files. -/
theorem step_other (h : w.attempt e = none) (hout : ∀ path bytes, e ≠ .outside path bytes) :
    SameVault w.vault (w.step c e).vault ∧ (w.step c e).files = w.files
      ∧ w.logAfter c log e = log := by
  cases e with
  | setAnchor path => exact ⟨setAnchor_same, rfl, rfl⟩
  | initAnchor path generation draws fault => cases h
  | writeAnchor generation draws fault =>
      have hpath : w.vault.anchorPath = none := Option.map_eq_none_iff.mp h
      have hnone : w.vault.writeAnchor c w.files generation draws fault
          = (.ok (), w.files, w.vault) := by
        unfold Anchored.writeAnchor
        rw [hpath]
      refine ⟨?_, ?_, ?_⟩
      · unfold step
        dsimp only
        rw [hnone]
        exact ⟨rfl, rfl, rfl, rfl⟩
      · unfold step
        dsimp only
        rw [hnone]
      · exact congrArg (fun t => Option.elim t log (w.logWrite c log)) h
  | header generation => exact ⟨⟨rfl, rfl, rfl, rfl⟩, rfl, rfl⟩
  | outside path bytes => exact absurd rfl (hout path bytes)

end World

/-! ## What every step keeps -/

/-- The log tells what is in the files. -/
structure Log.Tells (c : Crypto) (w : World) (log : Log) : Prop where
  texts : ∀ r ∈ log.made, w.vault.Means r.text r.contents
  known : ∀ p file a, w.files p = some file → w.vault.readBytes c file = .ok a →
    ∃ r ∈ log.made, r.contents = a
  last : ∀ p a, log.last p = some a → ∃ file, w.files p = some file
    ∧ w.vault.readBytes c file = .ok a

namespace SameVault

variable {c : Crypto} {v v' : Anchored} {t file : List UInt8} {a : AnchorContents}

theorem readBytes (h : SameVault v v') : v'.readBytes c file = v.readBytes c file := by
  unfold Anchored.readBytes
  rw [h.mvk, h.headerSalt, h.deniable, h.cipherSuite]

theorem means (h : SameVault v v') : v'.Means t a ↔ v.Means t a := by
  unfold Anchored.Means
  rw [h.deniable]

end SameVault

namespace Log.Tells

open World

variable {c : Crypto} {w : World} {log : Log} {e : Event}

theorem vault (h : log.Tells c w) {w' : World} (hv : SameVault w.vault w'.vault)
    (hf : w'.files = w.files) : log.Tells c w' := by
  refine ⟨fun r hr => hv.means.mpr (h.texts r hr), fun p file a hfile hread => ?_,
    fun p a hp => ?_⟩
  · rw [hv.readBytes] at hread
    rw [hf] at hfile
    exact h.known p file a hfile hread
  · obtain ⟨file, hfile, hread⟩ := h.last p a hp
    rw [← hf] at hfile
    rw [← hv.readBytes] at hread
    exact ⟨file, hfile, hread⟩

/-- A record more, of a call that has left no file. -/
theorem unlanded (h : log.Tells c w) {r : Record} (hr : w.vault.Means r.text r.contents) :
    Tells c w { log with made := r :: log.made } := by
  refine ⟨fun x hx => ?_, fun p file a hfile hread => ?_, h.last⟩
  · rcases List.mem_cons.mp hx with rfl | hx
    · exact hr
    · exact h.texts x hx
  · obtain ⟨x, hx, heq⟩ := h.known p file a hfile hread
    exact ⟨x, List.mem_cons_of_mem _ hx, heq⟩

/-- A file that was made, at a path. -/
theorem landed (h : log.Tells c w) {path : String} {buf : List UInt8} {r : Record}
    (hr : r ∈ log.made) (hread : w.vault.readBytes c buf = .ok r.contents) :
    Tells c { w with files := w.files.put path buf }
      { log with last := fun p => if p = path then some r.contents else log.last p } := by
  refine ⟨h.texts, fun p file a hfile ha => ?_, fun p a hp => ?_⟩
  · by_cases hpath : p = path
    · have hbuf : buf = file := Option.some.inj ((if_pos hpath).symm.trans hfile)
      rw [← hbuf] at ha
      exact ⟨r, hr, Except.ok.inj (hread.symm.trans ha)⟩
    · exact h.known p file a ((if_neg hpath).symm.trans hfile) ha
  · by_cases hpath : p = path
    · have heq : r.contents = a := Option.some.inj ((if_pos hpath).symm.trans hp)
      exact ⟨buf, if_pos hpath, heq ▸ hread⟩
    · obtain ⟨file, hfile, ha⟩ := h.last p a ((if_neg hpath).symm.trans hp)
      exact ⟨file, (if_neg hpath).trans hfile, ha⟩

/-- What someone else puts at a path, or that he puts nothing there. -/
theorem outside (h : log.Tells c w) {path : String} {bytes : Option (List UInt8)}
    (hfair : w.Fair c log (.outside path bytes)) :
    Tells c (w.step c (.outside path bytes)) (w.logAfter c log (.outside path bytes)) := by
  refine ⟨h.texts, fun p file a hfile ha => ?_, fun p a hp => ?_⟩
  · by_cases hpath : p = path
    · have hbytes : bytes = some file := (if_pos hpath).symm.trans hfile
      obtain ⟨t, ht, hmeans⟩ := (hfair file hbytes).made ha
      obtain ⟨r, hr, rfl⟩ := List.mem_map.mp ht
      exact ⟨r, hr, (h.texts r hr).functional hmeans⟩
    · exact h.known p file a ((if_neg hpath).symm.trans hfile) ha
  · by_cases hpath : p = path
    · cases (if_pos hpath).symm.trans hp
    · obtain ⟨file, hfile, ha⟩ := h.last p a ((if_neg hpath).symm.trans hp)
      exact ⟨file, (if_neg hpath).trans hfile, ha⟩

theorem write (hc : c.OpensSealed) (htag : ∀ suite, SealsWithTag c suite) (h : log.Tells c w) {t : Attempt}
    (ht : w.attempt e = some t) (hclear : w.vault.Clear t.contents t.draws) :
    Tells c (w.step c e) (w.logWrite c log t) := by
  obtain ⟨hsame, hfiles⟩ := @step_attempt c w e t ht
  unfold World.logWrite
  cases hbuild : w.vault.build c t.contents t.draws with
  | error e' =>
      rw [hbuild] at hfiles
      exact h.vault hsame hfiles
  | ok buf =>
      rw [hbuild] at hfiles
      obtain ⟨text, htext⟩ := Anchored.text_of_build htag hbuild
      have hmore := @unlanded c w log h ⟨t.contents, text⟩ (Anchored.text_means hclear htext)
      rw [htext]
      dsimp only at hfiles ⊢
      cases hlands : t.lands with
      | false =>
          rw [hlands] at hfiles
          exact hmore.vault hsame hfiles
      | true =>
          rw [hlands] at hfiles
          have hread := Anchored.readBytes_build hc htag hclear hbuild
          exact (hmore.landed List.mem_cons_self hread).vault hsame hfiles

theorem step (hc : c.OpensSealed) (htag : ∀ suite, SealsWithTag c suite) (h : log.Tells c w)
    (hfair : w.Fair c log e) : Tells c (w.step c e) (w.logAfter c log e) := by
  cases ht : w.attempt e with
  | none =>
      by_cases hout : ∃ path bytes, e = .outside path bytes
      · obtain ⟨path, bytes, rfl⟩ := hout
        exact h.outside hfair
      · obtain ⟨hsame, hfiles, hlog⟩ := @step_other c w log e ht
          (fun path bytes heq => hout ⟨path, bytes, heq⟩)
        rw [hlog]
        exact h.vault hsame hfiles
  | some t =>
      have hwrite := h.write hc htag ht
      cases e with
      | setAnchor path => cases ht
      | initAnchor path generation draws fault =>
          cases ht
          exact hwrite (hfair _ rfl)
      | writeAnchor generation draws fault =>
          have hlog : w.logAfter c log (.writeAnchor generation draws fault)
              = w.logWrite c log t :=
            congrArg (fun t => Option.elim t log (w.logWrite c log)) ht
          rw [hlog]
          exact hwrite (hfair t ht)
      | header generation => cases ht
      | outside path bytes => cases ht

theorem run (hc : c.OpensSealed) (htag : ∀ suite, SealsWithTag c suite) {events : List Event}
    (h : log.Tells c w) (hfair : w.RunsFair c log events) :
    Tells c (w.run c events) (w.logRun c log events) := by
  induction events generalizing w log with
  | nil => exact h
  | cons e rest ih => exact ih (h.step hc htag hfair.1) hfair.2

end Log.Tells

/-! ## What a vault is told -/

namespace Anchored

variable {c : Crypto} {v : Anchored} {files : Files} {path : String} {a : AnchorContents}

theorem setAnchor_of_read (h : v.readAnchor c files path = .ok a) :
    (v.setAnchor c files (some path)).1 = (v.headerHalf a).map fun _ => some a.generation := by
  unfold setAnchor
  dsimp only
  rw [h]
  dsimp only
  cases v.headerHalf a with
  | error e => rfl
  | ok u => rfl

theorem setAnchor_ok {g : Option UInt64} (h : (v.setAnchor c files (some path)).1 = .ok g) :
    ∃ a, v.readAnchor c files path = .ok a ∧ v.headerHalf a = .ok () ∧ g = some a.generation := by
  unfold setAnchor at h
  dsimp only at h
  cases hread : v.readAnchor c files path with
  | error e =>
      rw [hread] at h
      cases h
  | ok a =>
      rw [hread] at h
      dsimp only at h
      refine ⟨a, rfl, ?_⟩
      cases hhalf : v.headerHalf a with
      | error e =>
          rw [hhalf] at h
          cases h
      | ok u =>
          rw [hhalf] at h
          cases h
          exact ⟨rfl, rfl⟩

end Anchored

/-- What `set_anchor` vouches for after any run. Where nobody else has been, it
answers by what was recorded there last. Anywhere, a generation that it returns
is one that the vault recorded at some time, with a header generation that the
header of now is not behind. -/
theorem anchor_vouches {c : Crypto} (hc : c.OpensSealed) (htag : ∀ suite, SealsWithTag c suite) {v : Anchored}
    {events : List Event}
    (hfair : World.RunsFair c ⟨fun _ => none, v⟩ Log.empty events) :
    let w := World.run c ⟨fun _ => none, v⟩ events
    let log := World.logRun c ⟨fun _ => none, v⟩ Log.empty events
    (∀ p a, log.last p = some a →
        (w.vault.setAnchor c w.files (some p)).1
          = (w.vault.headerHalf a).map fun _ => some a.generation)
      ∧ (∀ p g, (w.vault.setAnchor c w.files (some p)).1 = .ok g →
        ∃ r ∈ log.made, g = some r.contents.generation ∧ w.vault.headerHalf r.contents = .ok ())
      ∧ ∀ p, w.vault.readAnchor c w.files p ≠ .error .panic := by
  intro w log
  have hstart : Log.empty.Tells c ⟨fun _ => none, v⟩ := ⟨nofun, nofun, nofun⟩
  have htells : log.Tells c w := hstart.run hc htag hfair
  refine ⟨fun p a hp => ?_, fun p g hg => ?_, fun p => Anchored.readAnchor_ne_panic⟩
  · obtain ⟨file, hfile, hread⟩ := htells.last p a hp
    exact Anchored.setAnchor_of_read (Anchored.readAnchor_ok.mpr ⟨file, hfile, hread⟩)
  · obtain ⟨a, hread, hhalf, hga⟩ := Anchored.setAnchor_ok hg
    obtain ⟨file, hfile, hbytes⟩ := Anchored.readAnchor_ok.mp hread
    obtain ⟨r, hr, rfl⟩ := htells.known p file a hfile hbytes
    exact ⟨r, hr, hga, hhalf⟩

section Sample

def sampleVault : Anchored where
  mvk := sampleMvk
  headerSalt := Bytes.zero 32
  deniable := none
  cipherSuite := .aes256Gcm
  headerGeneration := some 3
  anchorPath := none
  anchoredMetadataGen := none

def noDraws : Draws := ⟨none, none, none⟩

/-- The first anchor of the vault, which someone has kept and puts down again
beside the one of now. The write of that one returned an error after its commit. -/
def copiedEvents : List Event :=
  [ .initAnchor "a" 5 noDraws .none, .writeAnchor 7 noDraws .after, .header (some 4),
    .outside "b" (some (buildAnchorBuf plainCrypto ⟨5, some 3⟩ sampleMvk (Bytes.zero 32))) ]

theorem copiedEvents_fair :
    World.RunsFair plainCrypto ⟨fun _ => none, sampleVault⟩ Log.empty copiedEvents := by
  refine ⟨fun t _ h => (nomatch h), fun t _ h => (nomatch h), fun t h => (nomatch h), ?_, trivial⟩
  intro file hfile msg tag heq htag
  have htagLen : tag.length = 32 := htag ▸ Bytes.length_val _
  rw [← Option.some.inj hfile] at heq
  have hlen := congrArg List.length heq
  rw [buildAnchorBuf_length, body_length, List.length_append, htagLen] at hlen
  have hmsg : msg.length = (body ⟨5, some 3⟩).length := (Nat.add_right_cancel hlen).symm
  have hbody : body ⟨5, some 3⟩ = msg := (List.append_inj heq hmsg.symm).1
  rw [← hbody]
  exact List.mem_cons_of_mem _ List.mem_cons_self

theorem anchor_vouches_copied :
    let w := World.run plainCrypto ⟨fun _ => none, sampleVault⟩ copiedEvents
    (w.vault.setAnchor plainCrypto w.files (some "a")).1 = .ok (some 7)
      ∧ ∀ g, (w.vault.setAnchor plainCrypto w.files (some "b")).1 = .ok g →
        g = some 7 ∨ g = some 5 := by
  intro w
  obtain ⟨hlast, hmade, -⟩ :=
    anchor_vouches plainCrypto_opensSealed plainCrypto_tag copiedEvents_fair
  refine ⟨hlast "a" ⟨7, some 3⟩ (by decide), fun g hg => ?_⟩
  obtain ⟨r, hr, hg, -⟩ := hmade "b" g hg
  rcases List.mem_cons.mp hr with rfl | hr
  · exact .inl hg
  · rcases List.mem_cons.mp hr with rfl | hr
    · exact .inr hg
    · cases hr

end Sample

end Luksbox.Anchor
