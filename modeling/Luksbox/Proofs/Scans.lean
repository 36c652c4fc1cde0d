import Luksbox.Model.Mount
import Luksbox.Proofs.NamespaceRuns

/-!
# What a directory scan returns

A scan resumes by position, and the listing it resumes in is a new one every
time. The listing is sorted, so a position is as good as a name as long as as
many names precede it as did when the name was returned: what has been received
are then the names up to the last one, and what comes next are the names after
it. A call of somebody else that adds or removes a name in the part that has
been received shifts the rest, and the scan skips a name or returns one twice.
-/

namespace Luksbox

open Lib

namespace Fuse

/-! ## Sorted lists cut at a value -/

section Sorted

variable {L : List String} {p x : String}

/-- In a sorted list the values up to `x` are a prefix. -/
theorem drop_passed (h : L.Pairwise (· < ·)) (x : String) :
    ∀ p, p ∈ L.drop (L.filter (· ≤ x)).length ↔ p ∈ L ∧ x < p := by
  induction L with
  | nil => intro p; simp
  | cons a rest ih =>
      rw [List.pairwise_cons] at h
      intro p
      by_cases ha : a ≤ x
      · rw [List.filter_cons_of_pos (by simpa using ha), List.length_cons, List.drop_succ_cons,
          ih h.2 p]
        refine ⟨fun hp => ⟨List.mem_cons_of_mem a hp.1, hp.2⟩, fun hp => ⟨?_, hp.2⟩⟩
        rcases List.mem_cons.mp hp.1 with rfl | hp'
        · exact absurd hp.2 (not_lt.mpr ha)
        · exact hp'
      · -- everything after `a` is larger still
        have hnone : rest.filter (· ≤ x) = [] := by
          rw [List.filter_eq_nil_iff]
          intro b hb
          have := h.1 b hb
          simp only [decide_eq_true_eq, not_le]
          exact (not_le.mp ha).trans this
        rw [List.filter_cons_of_neg (by simpa using ha), hnone, List.length_nil, List.drop_zero]
        refine ⟨fun hp => ⟨hp, ?_⟩, fun hp => hp.1⟩
        rcases List.mem_cons.mp hp with rfl | hp'
        · exact not_le.mp ha
        · exact (not_le.mp ha).trans (h.1 p hp')

/-- The first `n` values of a sorted list are those up to the last of them. -/
theorem mem_take_iff (h : L.Pairwise (· < ·)) {n : Nat} {m : String}
    (hm : (L.take n).getLast? = some m) (hp : p ∈ L) : p ∈ L.take n ↔ p ≤ m := by
  have hsplit := h
  rw [← List.take_append_drop n L, List.pairwise_append] at hsplit
  obtain ⟨ini, hini⟩ := List.getLast?_eq_some_iff.mp hm
  constructor
  · intro hmem
    have hsorted := hsplit.1
    rw [hini] at hmem hsorted
    rw [List.pairwise_append] at hsorted
    rcases List.mem_append.mp hmem with hmem | hmem
    · exact (hsorted.2.2 p hmem m List.mem_cons_self).le
    · exact (List.mem_singleton.mp hmem).le
  · intro hle
    rw [← List.take_append_drop n L] at hp
    rcases List.mem_append.mp hp with hp | hp
    · exact hp
    · have hlast : m ∈ L.take n := List.mem_of_getLast? hm
      exact absurd (hsplit.2.2 m hlast p hp) (not_lt.mpr hle)

theorem count_of_nodup (h : L.Nodup) : L.count p = if p ∈ L then 1 else 0 := by
  split
  · next hp => exact List.count_eq_one_of_mem h hp
  · next hp => exact List.count_eq_zero.mpr hp

end Sorted

/-! ## One request -/

/-- The names of a directory, in the order of its listing. -/
def dirNames (s : Vfs) (dir : FileId) : List String :=
  match s.tree.inodes.get? dir with
  | some i => i.children.keys
  | none => []

/-- The directory is there and has the name. -/
def Lists (s : Vfs) (dir : FileId) (p : String) : Prop :=
  ∃ i, s.tree.inodes.get? dir = some i ∧ i.kind = .directory ∧ p ∈ i.children.keys

theorem Lists.mem {s : Vfs} {dir : FileId} {p : String} (h : Lists s dir p) :
    p ∈ dirNames s dir := by
  obtain ⟨i, hi, -, hp⟩ := h
  unfold dirNames
  rw [hi]
  exact hp

theorem dirNames_sorted (s : Vfs) (dir : FileId) : (dirNames s dir).Pairwise (· < ·) := by
  unfold dirNames
  cases s.tree.inodes.get? dir with
  | none => exact List.Pairwise.nil
  | some i => exact List.pairwise_map.mpr i.children.sorted

theorem listing_names {s : Vfs} {dir : FileId} {p : String} (h : Lists s dir p) :
    ∃ all, listing dir s = .ok all s ∧ all.map (fun e => e.2.2) = "." :: ".." :: dirNames s dir := by
  obtain ⟨i, hi, hk, -⟩ := h
  have hwp : wp (listing dir)
      (fun all s' => s' = s ∧ all.map (fun e => e.2.2) = "." :: ".." :: dirNames s dir)
      (fun _ _ => False) s := by
    unfold listing Vfs.readdir Vfs.parentOf
    simp only [wp_bind, Vfs.wp_requireDir, wp_get, wp_pure, wp_attempt, Vfs.wp_inodeOr]
    refine ⟨fun j hj => ⟨fun hk' => ?_, fun _ => ⟨fun _ _ => ⟨trivial, ?_⟩, fun hnone => ?_⟩⟩, ?_⟩
    · rw [hi] at hj
      injection hj with hj
      exact hk' (hj ▸ hk)
    · unfold dirNames OrdMap.keys
      rw [hj, List.map_append, List.map_map, List.map_map]
      rfl
    · rw [hi] at hnone
      cases hnone
    · intro hnone
      rw [hi] at hnone
      cases hnone
  obtain ⟨all, s', hrun, hs', hnames⟩ := exists_of_wp hwp
  subst hs'
  exact ⟨all, hrun, hnames⟩

/-- A request returns the names from its offset on, as many as fit, and the
last entry carries the offset after it. -/
theorem request_names {s : Vfs} {dir : FileId} {p : String} (h : Lists s dir p)
    (offset room : Nat) :
    (Scan.request s dir offset room).map ReplyEntry.name =
        (("." :: ".." :: dirNames s dir).drop offset).take room ∧
      ∀ e ∈ (Scan.request s dir offset room).getLast?,
        e.offset = offset + (Scan.request s dir offset room).length := by
  obtain ⟨all, hall, hnames⟩ := listing_names h
  have hreq : Scan.request s dir offset room = ((all.zipIdx.drop offset).take room).map
      fun x => { ino := x.1.1, offset := x.2 + 1, kind := x.1.2.1, name := x.1.2.2 } := by
    unfold Scan.request readdir
    rw [bind_ok hall]
    rfl
  generalize Scan.request s dir offset room = reply at hreq ⊢
  have hentry : ∀ k (hk : k < reply.length),
      reply[k].offset = offset + k + 1 ∧
        ((("." :: ".." :: dirNames s dir).drop offset).take room)[k]? = some reply[k].name := by
    intro k hk
    subst hreq
    rw [← hnames]
    simp only [List.length_map, List.length_take, List.length_drop, List.length_zipIdx] at hk
    constructor
    · simp
    · rw [List.getElem?_eq_getElem (by simpa using hk)]
      simp
  have hlen : reply.length = ((("." :: ".." :: dirNames s dir).drop offset).take room).length := by
    rw [hreq, ← hnames]
    simp
  constructor
  · refine List.ext_getElem (by rw [List.length_map, hlen]) fun k h₁ h₂ => ?_
    have := (hentry k (by simpa using h₁)).2
    rw [List.getElem?_eq_getElem h₂] at this
    injection this with this
    rw [this, List.getElem_map]
  · intro e he
    rw [List.getLast?_eq_getElem?] at he
    obtain ⟨hk, hget⟩ := List.getElem?_eq_some_iff.mp he
    have := (hentry _ hk).1
    rw [hget] at this
    omega

/-! ## Rounds -/

/-- The condition on a request: if the caller has received a name of the
directory, as many names precede its offset as there are names up to that one. -/
def Scan.Resumes (dir : FileId) (sc : Scan) (s : Vfs) : Prop :=
  2 < sc.offset → ∀ e ∈ sc.received.getLast?,
    ((dirNames s dir).filter (· ≤ e.name)).length = sc.offset - 2

/-- What the caller has of a name: it is past it and got it once, or not. -/
structure Scan.Holds (p : String) (sc : Scan) : Prop where
  dots : sc.offset ≤ 2 → (sc.received.map ReplyEntry.name).count p = 0
  names : 2 < sc.offset → ∃ e, sc.received.getLast? = some e ∧
    (sc.received.map ReplyEntry.name).count p = if p ≤ e.name then 1 else 0

theorem Scan.Holds.start (p : String) (s : Vfs) : Scan.Holds p (Scan.start s) where
  dots := fun _ => rfl
  names := fun h => absurd h (Nat.not_lt_zero 2)

theorem Scan.round_offset {dir : FileId} {sc : Scan} {r : Round} {p : String}
    (h : Lists (sc.found r) dir p) :
    (sc.round dir r).offset = sc.offset + (sc.round dir r).last.length := by
  have hlast := (request_names h sc.offset r.room).2
  show ((Scan.request (sc.found r) dir sc.offset r.room).getLast?.map ReplyEntry.offset).getD
    sc.offset = sc.offset + (Scan.request (sc.found r) dir sc.offset r.room).length
  cases hl : (Scan.request (sc.found r) dir sc.offset r.room).getLast? with
  | none =>
      rw [List.getLast?_eq_none_iff.mp hl]
      rfl
  | some e => exact hlast e hl

/-- The name after which the next request goes on. -/
theorem Scan.round_last {dir : FileId} {sc : Scan} {r : Round} {m : String}
    (h : ((sc.round dir r).last.map ReplyEntry.name).getLast? = some m) :
    ∃ e, (sc.round dir r).received.getLast? = some e ∧ e.name = m := by
  rw [List.getLast?_map, Option.map_eq_some_iff] at h
  obtain ⟨e, he, hm⟩ := h
  refine ⟨e, ?_, hm⟩
  show (sc.received ++ (sc.round dir r).last).getLast? = some e
  rw [List.getLast?_append, he]
  rfl

theorem Scan.round_count {dir : FileId} {sc : Scan} {r : Round} (p : String) :
    ((sc.round dir r).received.map ReplyEntry.name).count p =
      (sc.received.map ReplyEntry.name).count p +
        ((sc.round dir r).last.map ReplyEntry.name).count p := by
  show ((sc.received ++ (sc.round dir r).last).map ReplyEntry.name).count p = _
  rw [List.map_append, List.count_append]

variable {dir : FileId} {sc : Scan} {r : Round} {p : String}

/-- A request while only dot entries have been received. -/
theorem Scan.Holds.round_dots (h : sc.Holds p) (hroom : 0 < r.room)
    (hp : Lists (sc.found r) dir p) (hdot : p ≠ "." ∧ p ≠ "..") (hoff : sc.offset ≤ 2) :
    (sc.round dir r).Holds p ∧ (sc.round dir r).last ≠ [] := by
  have hnames : (sc.round dir r).last.map ReplyEntry.name = _ :=
    (request_names hp sc.offset r.room).1
  have hoffset := Scan.round_offset hp
  have hcount : ((sc.round dir r).received.map ReplyEntry.name).count p = _ :=
    Scan.round_count p
  have hmem := hp.mem
  have hsorted := dirNames_sorted (sc.found r) dir
  rw [h.dots hoff, Nat.zero_add] at hcount
  generalize dirNames (sc.found r) dir = L at hnames hmem hsorted
  -- the dot entries that are left, and then the names
  obtain ⟨D, hD, hDp, hdrop⟩ : ∃ D : List String, D.length = 2 - sc.offset ∧ p ∉ D ∧
      ("." :: ".." :: L).drop sc.offset = D ++ L := by
    have : sc.offset = 0 ∨ sc.offset = 1 ∨ sc.offset = 2 := by omega
    rcases this with h0 | h0 | h0
    · exact ⟨[".", ".."], by rw [h0]; rfl, by simp [hdot.1, hdot.2], by rw [h0]; rfl⟩
    · exact ⟨[".."], by rw [h0]; rfl, by simp [hdot.2], by rw [h0]; rfl⟩
    · exact ⟨[], by rw [h0]; rfl, by simp, by rw [h0]; rfl⟩
  rw [hdrop, List.take_append] at hnames
  have hlen : (sc.round dir r).last.length =
      (D.take r.room).length + (L.take (r.room - D.length)).length := by
    rw [← List.length_append, ← hnames, List.length_map]
  rw [List.length_take] at hlen
  have hDtake : (D.take r.room).count p = 0 :=
    List.count_eq_zero.mpr fun hin => hDp (List.mem_of_mem_take hin)
  rw [hnames, List.count_append, hDtake, Nat.zero_add,
    count_of_nodup ((hsorted.imp fun hlt => ne_of_lt hlt).sublist (List.take_sublist _ L))] at hcount
  refine ⟨⟨fun hle => ?_, fun hlt => ?_⟩, ?_⟩
  · rw [hcount, if_neg]
    intro hin
    have := List.length_pos_of_mem hin
    rw [List.length_take] at hlen this
    omega
  · have hne : L.take (r.room - D.length) ≠ [] := by
      intro hnil
      rw [hnil, List.length_nil] at hlen
      omega
    obtain ⟨m, hm⟩ := Option.isSome_iff_exists.mp (List.getLast?_isSome.mpr hne)
    have hlast : ((sc.round dir r).last.map ReplyEntry.name).getLast? = some m := by
      rw [hnames, List.getLast?_append, hm]
      rfl
    obtain ⟨e, he, hem⟩ := Scan.round_last hlast
    refine ⟨e, he, ?_⟩
    rw [hcount, hem]
    simp only [mem_take_iff hsorted hm hmem]
  · intro hnil
    rw [hnil, List.length_nil] at hlen
    have hpos := List.length_pos_of_mem hmem
    rw [List.length_take] at hlen
    omega

/-- A request after a name, with as many names before it as ever. -/
theorem Scan.Holds.round_names (h : sc.Holds p) (hroom : 0 < r.room)
    (hp : Lists (sc.found r) dir p) (hres : sc.Resumes dir (sc.found r)) (hoff : 2 < sc.offset) :
    (sc.round dir r).Holds p ∧ ((sc.round dir r).last = [] →
      ((sc.round dir r).received.map ReplyEntry.name).count p = 1) := by
  obtain ⟨e, he, hhad⟩ := h.names hoff
  have hpassed := hres hoff e he
  have hnames : (sc.round dir r).last.map ReplyEntry.name = _ :=
    (request_names hp sc.offset r.room).1
  have hoffset := Scan.round_offset hp
  have hcount : ((sc.round dir r).received.map ReplyEntry.name).count p = _ :=
    Scan.round_count p
  have hmem := hp.mem
  have hsorted := dirNames_sorted (sc.found r) dir
  generalize dirNames (sc.found r) dir = L at hnames hmem hsorted hpassed
  have hdrop : ("." :: ".." :: L).drop sc.offset = L.drop (sc.offset - 2) := by
    obtain ⟨k, hk⟩ : ∃ k, sc.offset = k + 2 := ⟨sc.offset - 2, by omega⟩
    rw [hk]
    rfl
  have hafter : ∀ x, x ∈ L.drop (sc.offset - 2) ↔ x ∈ L ∧ e.name < x := by
    rw [← hpassed]
    exact drop_passed hsorted e.name
  rw [hdrop] at hnames
  have hrest : (L.drop (sc.offset - 2)).Pairwise (· < ·) := hsorted.sublist (List.drop_sublist _ L)
  generalize L.drop (sc.offset - 2) = D at hnames hafter hrest
  rw [hhad, hnames,
    count_of_nodup ((hrest.imp fun hlt => ne_of_lt hlt).sublist (List.take_sublist _ D))] at hcount
  cases hlast : (D.take r.room).getLast? with
  | none =>
      -- the end: every name has been passed
      have hnil : D.take r.room = [] := List.getLast?_eq_none_iff.mp hlast
      have hD : D = [] := by
        rcases List.take_eq_nil_iff.mp hnil with h0 | h0
        · omega
        · exact h0
      have hle : p ≤ e.name := by
        by_contra hlt
        have := (hafter p).mpr ⟨hmem, not_le.mp hlt⟩
        rw [hD] at this
        cases this
      have hreply : (sc.round dir r).last = [] := by
        rw [hnil] at hnames
        exact List.map_eq_nil_iff.mp hnames
      rw [hnil, if_pos hle, if_neg (by simp)] at hcount
      refine ⟨⟨fun hle' => ?_, fun _ => ⟨e, ?_, ?_⟩⟩, fun _ => hcount⟩
      · omega
      · show (sc.received ++ (sc.round dir r).last).getLast? = some e
        rw [hreply, List.append_nil]
        exact he
      · rw [hcount, if_pos hle]
  | some m =>
      have hm : e.name < m := ((hafter m).mp (List.mem_of_mem_take (List.mem_of_getLast? hlast))).2
      obtain ⟨e', he', hem⟩ := Scan.round_last (show
        ((sc.round dir r).last.map ReplyEntry.name).getLast? = some m by rw [hnames, hlast])
      refine ⟨⟨fun hle' => by omega, fun _ => ⟨e', he', ?_⟩⟩, fun hnil => ?_⟩
      · rw [hcount, hem]
        by_cases hle : p ≤ e.name
        · rw [if_pos hle, if_pos (hle.trans hm.le), if_neg]
          intro hin
          exact absurd ((hafter p).mp (List.mem_of_mem_take hin)).2 (not_lt.mpr hle)
        · have hin : p ∈ D := (hafter p).mpr ⟨hmem, not_le.mp hle⟩
          rw [if_neg hle, Nat.zero_add]
          simp only [mem_take_iff hrest hlast hin]
      · rw [hnil] at hnames
        rw [← hnames] at hlast
        cases hlast

theorem Scan.Holds.round (h : sc.Holds p) (hroom : 0 < r.room) (hp : Lists (sc.found r) dir p)
    (hdot : p ≠ "." ∧ p ≠ "..") (hres : sc.Resumes dir (sc.found r)) :
    (sc.round dir r).Holds p ∧ ((sc.round dir r).last = [] →
      ((sc.round dir r).received.map ReplyEntry.name).count p = 1) := by
  by_cases hoff : sc.offset ≤ 2
  · obtain ⟨hholds, hne⟩ := h.round_dots hroom hp hdot hoff
    exact ⟨hholds, fun hnil => absurd hnil hne⟩
  · exact h.round_names hroom hp hres (Nat.not_le.mp hoff)

/-! ## Whole scans -/

/-- Something holds at every request of a scan, of the caller and of the vault
as the request finds it. -/
def AtRequests (dir : FileId) (Q : Scan → Vfs → Prop) : Scan → List Round → Prop
  | _, [] => True
  | sc, r :: rest => Q sc (sc.found r) ∧ AtRequests dir Q (sc.round dir r) rest

/-- The name is there whenever the directory is listed. -/
def Stays (dir : FileId) (p : String) (s : Vfs) (rounds : List Round) : Prop :=
  AtRequests dir (fun _ s => Lists s dir p) (Scan.start s) rounds

/-- No request finds the names the caller has passed more or fewer than they
were. -/
def Unshifted (dir : FileId) (s : Vfs) (rounds : List Round) : Prop :=
  AtRequests dir (Scan.Resumes dir) (Scan.start s) rounds

/-- A scan that has seen the end, with room for an entry in every reply. -/
structure Complete (dir : FileId) (s : Vfs) (rounds : List Round) : Prop where
  rooms : ∀ r ∈ rounds, 0 < r.room
  asked : rounds ≠ []
  ended : (scan dir s rounds).last = []

/-- The scan has returned every name that stayed, once. -/
def ReturnsAll (dir : FileId) (s : Vfs) (rounds : List Round) : Prop :=
  ∀ p, p ≠ "." ∧ p ≠ ".." → Stays dir p s rounds →
    ((scan dir s rounds).received.map ReplyEntry.name).count p = 1

theorem Scan.Holds.rounds {rounds : List Round} (h : sc.Holds p) (hdot : p ≠ "." ∧ p ≠ "..")
    (hrooms : ∀ r ∈ rounds, 0 < r.room)
    (hp : AtRequests dir (fun _ s => Lists s dir p) sc rounds)
    (hres : AtRequests dir (Scan.Resumes dir) sc rounds) (hne : rounds ≠ [])
    (hend : (rounds.foldl (Scan.round dir) sc).last = []) :
    ((rounds.foldl (Scan.round dir) sc).received.map ReplyEntry.name).count p = 1 := by
  induction rounds generalizing sc with
  | nil => exact absurd rfl hne
  | cons r rest ih =>
      obtain ⟨hholds, hdone⟩ := h.round (hrooms r List.mem_cons_self) hp.1 hdot hres.1
      rw [List.foldl_cons] at hend ⊢
      by_cases hrest : rest = []
      · subst hrest
        exact hdone hend
      · exact ih hholds (fun r' hr' => hrooms r' (List.mem_cons_of_mem r hr')) hp.2 hres.2 hrest hend

/-- A complete scan returns every name that stays exactly once, whatever is
called between its requests, if no request finds the part that was received
shifted. -/
theorem scan_returns_all {s : Vfs} {rounds : List Round} (hc : Complete dir s rounds)
    (hu : Unshifted dir s rounds) : ReturnsAll dir s rounds := by
  intro p hdot hstays
  exact (Scan.Holds.start p s).rounds hdot hc.rooms hstays hu hc.asked hc.ended

theorem lists_iff {s : Vfs} : Lists s dir p ↔ (s.tree.inodes.get? dir).any (fun i =>
    decide (i.kind = .directory) && decide (p ∈ i.children.keys)) = true := by
  unfold Lists
  rw [Option.any_eq_true]
  simp only [Bool.and_eq_true, decide_eq_true_eq]

instance {s : Vfs} : Decidable (Lists s dir p) := decidable_of_iff _ lists_iff.symm

instance {s : Vfs} : Decidable (sc.Resumes dir s) :=
  inferInstanceAs (Decidable (2 < sc.offset → ∀ e ∈ sc.received.getLast?,
    ((dirNames s dir).filter (· ≤ e.name)).length = sc.offset - 2))

instance decidableAtRequests {Q : Scan → Vfs → Prop} [∀ sc s, Decidable (Q sc s)] :
    ∀ (sc : Scan) (rounds : List Round), Decidable (AtRequests dir Q sc rounds)
  | _, [] => isTrue trivial
  | sc, r :: rest =>
      @instDecidableAnd _ _ _ (decidableAtRequests (sc.round dir r) rest)

/-- The root with three files. -/
def threeFiles : Vfs :=
  Vfs.plain.run [(Op.create 1 "a" 0o644).quiet, (Op.create 1 "b" 0o644).quiet,
    (Op.create 1 "c" 0o644).quiet]

/-- After "a" was received a file is added behind it. -/
def growingScan : List Round :=
  [⟨[], 3⟩, ⟨[(Op.create 1 "d" 0o644).quiet], 2⟩, ⟨[], 4⟩, ⟨[], 4⟩]

theorem scan_returns_all_growing :
    Stays 1 "b" threeFiles growingScan ∧
      ((scan 1 threeFiles growingScan).received.map ReplyEntry.name).count "b" = 1 := by
  have hstays : Stays 1 "b" threeFiles growingScan := by
    unfold Stays
    decide +kernel
  have hunshifted : Unshifted 1 threeFiles growingScan := by
    unfold Unshifted
    decide +kernel
  have hcomplete : Complete 1 threeFiles growingScan :=
    ⟨by decide, by decide, by decide +kernel⟩
  exact ⟨hstays, scan_returns_all hcomplete hunshifted "b" (by decide) hstays⟩

/-- After "a" was received it is removed. The next request goes on at the same
position of a shorter listing and misses "b", which was there all the time. -/
theorem scan_misses_name_after_unlink :
    Complete 1 threeFiles [⟨[], 3⟩, ⟨[(Op.unlink 1 "a").quiet], 4⟩, ⟨[], 4⟩] ∧
      Stays 1 "b" threeFiles [⟨[], 3⟩, ⟨[(Op.unlink 1 "a").quiet], 4⟩, ⟨[], 4⟩] ∧
      (scan 1 threeFiles [⟨[], 3⟩, ⟨[(Op.unlink 1 "a").quiet], 4⟩, ⟨[], 4⟩]).received.map
        ReplyEntry.name = [".", "..", "a", "c"] ∧
      ¬ ReturnsAll 1 threeFiles [⟨[], 3⟩, ⟨[(Op.unlink 1 "a").quiet], 4⟩, ⟨[], 4⟩] := by
  have hstays : Stays 1 "b" threeFiles [⟨[], 3⟩, ⟨[(Op.unlink 1 "a").quiet], 4⟩, ⟨[], 4⟩] := by
    unfold Stays
    decide +kernel
  have hnames : (scan 1 threeFiles [⟨[], 3⟩, ⟨[(Op.unlink 1 "a").quiet], 4⟩, ⟨[], 4⟩]).received.map
      ReplyEntry.name = [".", "..", "a", "c"] := by decide +kernel
  refine ⟨⟨by decide, by decide, by decide +kernel⟩, hstays, hnames, fun h => ?_⟩
  have hone := h "b" (by decide) hstays
  rw [hnames] at hone
  exact absurd hone (by decide)

end Fuse

end Luksbox
