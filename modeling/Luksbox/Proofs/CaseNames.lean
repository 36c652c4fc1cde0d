import Luksbox.Model.WinFsp
import Luksbox.Proofs.FileSystemRuns

/-!
# Names up to case

As long as no directory has two names that differ in case only, a name in any
case means one entry, and which one does not depend on the case (`CaseFree`).
Then the names are those of a `Volume`, whose directories have an entry for a
name up to case, and `lookup_ci` and `lookup_path_ci` read it.
-/

namespace Luksbox

open Lib FileSystem

variable {upper : Char → List Char}

/-! ## Case -/

/-- A name up to case. -/
def foldCase (upper : Char → List Char) (n : String) : List (List Char) := n.toList.map upper

theorem namesEqCi_iff {a b : List Char} :
    namesEqCi upper a b = true ↔ a.map upper = b.map upper := by
  induction a generalizing b with
  | nil =>
      cases b with
      | nil => exact ⟨fun _ => rfl, fun _ => rfl⟩
      | cons y b => exact ⟨nofun, nofun⟩
  | cons x a ih =>
      cases b with
      | nil => exact ⟨nofun, nofun⟩
      | cons y b =>
          unfold namesEqCi
          rw [List.map_cons, List.map_cons, List.cons.injEq, ← ih]
          split
          next h => exact ⟨nofun, fun heq => absurd heq.1 h.2⟩
          next h =>
            refine ⟨fun heq => ⟨?_, heq⟩, fun heq => heq.2⟩
            by_contra hne
            exact h ⟨fun hxy => hne (congrArg upper hxy), hne⟩

/-- No directory has two names for one name up to case. -/
def CaseFree (upper : Char → List Char) (names : FileId → String → Option FileId) : Prop :=
  ∀ d n n', (names d n).isSome → (names d n').isSome → foldCase upper n = foldCase upper n' → n = n'

namespace CaseFree

variable {names : FileId → String → Option FileId} {d p q id : FileId} {n k : String}

theorem assign_isSome {target : Option FileId} {d' : FileId} {n' : String}
    (h : (assign names d n target d' n').isSome) :
    (d' = d ∧ n' = n ∧ target.isSome) ∨ (¬ (d' = d ∧ n' = n) ∧ (names d' n').isSome) := by
  unfold assign at h
  split at h
  next hat => exact .inl ⟨hat.1, hat.2, h⟩
  next hat => exact .inr ⟨hat, h⟩

theorem remove (h : CaseFree upper names) : CaseFree upper (assign names d n none) := by
  intro d' a b ha hb hab
  rcases assign_isSome ha with ⟨-, -, hnone⟩ | ⟨-, ha⟩
  · cases hnone
  · rcases assign_isSome hb with ⟨-, -, hnone⟩ | ⟨-, hb⟩
    · cases hnone
    · exact h d' a b ha hb hab

/-- A name that no other name of the directory is equal to up to case. -/
theorem add (h : CaseFree upper names)
    (hnew : ∀ m, (names d m).isSome → foldCase upper m = foldCase upper k → m = k) :
    CaseFree upper (assign names d k (some id)) := by
  intro d' a b ha hb hab
  rcases assign_isSome ha with ⟨rfl, rfl, -⟩ | ⟨-, ha'⟩
  · rcases assign_isSome hb with ⟨-, rfl, -⟩ | ⟨-, hb'⟩
    · rfl
    · exact (hnew b hb' hab.symm).symm
  · rcases assign_isSome hb with ⟨rfl, rfl, -⟩ | ⟨-, hb'⟩
    · exact hnew a ha' hab
    · exact h d' a b ha' hb' hab

/-- A name that moves, to one that only itself may be equal to up to case. -/
theorem move (h : CaseFree upper names)
    (hnew : ∀ m, (names q m).isSome → foldCase upper m = foldCase upper k →
      m = k ∨ (q = p ∧ m = n)) :
    CaseFree upper (assign (assign names p n none) q k (some id)) := by
  refine h.remove.add fun m hm hmk => ?_
  rcases assign_isSome hm with ⟨-, -, hnone⟩ | ⟨hne, hm⟩
  · cases hnone
  · rcases hnew m hm hmk with heq | heq
    · exact heq
    · exact absurd heq hne

end CaseFree

/-! ## The volume -/

/-- What Windows sees of the names: in each directory, an entry for a name up to
case, with the name as it is spelled. -/
structure Volume where
  root : FileId
  entry : FileId → List (List Char) → Option (FileId × String)

namespace Volume

variable {v : Volume} {d : FileId} {k : List (List Char)} {e : Option (FileId × String)}

def assign (v : Volume) (d : FileId) (k : List (List Char)) (e : Option (FileId × String)) :
    Volume where
  root := v.root
  entry := fun d' k' => if d' = d ∧ k' = k then e else v.entry d' k'

theorem assign_self (h : v.entry d k = e) : v.assign d k e = v := by
  have hentry : (v.assign d k e).entry = v.entry := by
    funext d' k'
    show (if d' = d ∧ k' = k then e else v.entry d' k') = v.entry d' k'
    split
    next hat => rw [hat.1, hat.2, h]
    next => rfl
  show Volume.mk v.root (v.assign d k e).entry = v
  rw [hentry]

theorem assign_assign {e' : Option (FileId × String)} :
    (v.assign d k e).assign d k e' = v.assign d k e' := by
  refine congrArg (Volume.mk v.root) (funext fun d' => funext fun k' => ?_)
  show (if d' = d ∧ k' = k then e' else if d' = d ∧ k' = k then e else v.entry d' k') =
    if d' = d ∧ k' = k then e' else v.entry d' k'
  split
  · rfl
  · rfl

/-- A walk along the parts of a path. -/
def Walks (upper : Char → List Char) (v : Volume) : FileId → List String → FileId → Prop
  | cur, [], d => d = cur
  | cur, seg :: rest, d => ∃ e, v.entry cur (foldCase upper seg) = some e ∧ v.Walks upper e.1 rest d

def Resolves (upper : Char → List Char) (v : Volume) (path : String) (d : FileId) : Prop :=
  v.Walks upper v.root (Vfs.segments path) d

end Volume

section EntriesOf

variable {names : FileId → String → Option FileId} {d id : FileId} {n : String}
  {k : List (List Char)}

open Classical in
/-- The names up to case. There is one for each where the names are free of
case. -/
noncomputable def entriesOf (upper : Char → List Char) (names : FileId → String → Option FileId)
    (d : FileId) (k : List (List Char)) : Option (FileId × String) :=
  if h : ∃ e : FileId × String, names d e.2 = some e.1 ∧ foldCase upper e.2 = k then some h.choose
  else none

theorem entriesOf_eq_some (hfree : CaseFree upper names) {e : FileId × String} :
    entriesOf upper names d k = some e ↔ names d e.2 = some e.1 ∧ foldCase upper e.2 = k := by
  unfold entriesOf
  split
  next hex =>
    have hspec := hex.choose_spec
    refine ⟨fun h => Option.some.inj h ▸ hspec, fun h => congrArg some ?_⟩
    have hname : hex.choose.2 = e.2 := hfree d _ _ (by rw [hspec.1]; rfl) (by rw [h.1]; rfl)
      (hspec.2.trans h.2.symm)
    have hid : hex.choose.1 = e.1 := by
      have hsame := hspec.1
      rw [hname, h.1] at hsame
      exact (Option.some.inj hsame).symm
    exact Prod.ext hid hname
  next hno => exact ⟨nofun, fun h => absurd ⟨e, h⟩ hno⟩

theorem entriesOf_eq_none (h : ∀ m, (names d m).isSome → foldCase upper m ≠ k) :
    entriesOf upper names d k = none := by
  refine dif_neg ?_
  rintro ⟨e, he, hk⟩
  exact h e.2 (by rw [he]; rfl) hk

/-- A name that is another one up to case is left alone. -/
theorem assign_of_fold_ne {target : Option FileId} {d' : FileId} {m : String}
    (hat : ¬ (d' = d ∧ k = foldCase upper n)) (hk : foldCase upper m = k) :
    assign names d n target d' m = names d' m :=
  if_neg fun h => hat ⟨h.1, by rw [← hk, h.2]⟩

theorem entriesOf_add (hfree : CaseFree upper names)
    (hfree' : CaseFree upper (assign names d n (some id))) :
    entriesOf upper (assign names d n (some id)) = fun d' k' =>
      if d' = d ∧ k' = foldCase upper n then some (id, n) else entriesOf upper names d' k' := by
  funext d' k'
  refine Option.ext fun e => ?_
  rw [entriesOf_eq_some hfree']
  have hself : (assign names d n (some id)) d n = some id := if_pos ⟨rfl, rfl⟩
  split
  next hat =>
    obtain ⟨rfl, rfl⟩ := hat
    constructor
    · rintro ⟨he, hk⟩
      have hname : e.2 = n := hfree' d' _ _ (by rw [he]; rfl) (by rw [hself]; rfl) hk
      rw [hname, hself] at he
      exact congrArg some (Prod.ext (Option.some.inj he) hname.symm)
    · rintro h
      cases h
      exact ⟨hself, rfl⟩
  next hat =>
    rw [entriesOf_eq_some hfree]
    exact ⟨fun h => ⟨(assign_of_fold_ne hat h.2).symm.trans h.1, h.2⟩,
      fun h => ⟨(assign_of_fold_ne hat h.2).trans h.1, h.2⟩⟩

theorem entriesOf_remove (hfree : CaseFree upper names) (hn : (names d n).isSome) :
    entriesOf upper (assign names d n none) = fun d' k' =>
      if d' = d ∧ k' = foldCase upper n then none else entriesOf upper names d' k' := by
  funext d' k'
  refine Option.ext fun e => ?_
  rw [entriesOf_eq_some hfree.remove]
  split
  next hat =>
    obtain ⟨rfl, rfl⟩ := hat
    refine ⟨?_, nofun⟩
    rintro ⟨he, hk⟩
    rcases CaseFree.assign_isSome (show (assign names d' n none d' e.2).isSome by rw [he]; rfl) with
      ⟨-, -, hnone⟩ | ⟨hne, hold⟩
    · cases hnone
    · exact absurd ⟨rfl, hfree d' _ _ hold hn hk⟩ hne
  next hat =>
    rw [entriesOf_eq_some hfree]
    exact ⟨fun h => ⟨(assign_of_fold_ne hat h.2).symm.trans h.1, h.2⟩,
      fun h => ⟨(assign_of_fold_ne hat h.2).trans h.1, h.2⟩⟩

end EntriesOf

noncomputable def Vfs.volume (upper : Char → List Char) (s : Vfs) : Volume :=
  ⟨s.tree.root, entriesOf upper s.fileSystem.names⟩

/-! ## Looking names up -/

namespace Vfs

variable {s : Vfs} {d : FileId} {n m : String}

/-- The search in a directory. -/
def findCi (upper : Char → List Char) (children : OrdMap String FileId) (n : String) :
    Option (FileId × String) :=
  match children.get? n with
  | some id => some (id, n)
  | none =>
      (children.entries.find? fun e => namesEqCi upper e.1.toList n.toList).map fun e => (e.2, e.1)

theorem findCi_some {children : OrdMap String FileId} {r : FileId × String}
    (h : findCi upper children n = some r) :
    children.get? r.2 = some r.1 ∧ foldCase upper r.2 = foldCase upper n := by
  unfold findCi at h
  cases hexact : children.get? n with
  | some id =>
      rw [hexact] at h
      cases h
      exact ⟨hexact, rfl⟩
  | none =>
      rw [hexact] at h
      obtain ⟨e, hfound, rfl⟩ := Option.map_eq_some_iff.mp h
      refine ⟨OrdMap.get?_eq_some_iff.mpr (List.mem_of_find?_eq_some hfound), ?_⟩
      have heq := List.find?_some hfound
      exact namesEqCi_iff.mp heq

theorem findCi_none {children : OrdMap String FileId} (h : findCi upper children n = none)
    {k : String} (hk : (children.get? k).isSome) : foldCase upper k ≠ foldCase upper n := by
  unfold findCi at h
  cases hexact : children.get? n with
  | some id =>
      rw [hexact] at h
      cases h
  | none =>
      rw [hexact] at h
      intro hkn
      obtain ⟨c, hc⟩ := Option.isSome_iff_exists.mp hk
      have hall := List.find?_eq_none.mp (Option.map_eq_none_iff.mp h)
      exact hall _ (OrdMap.get?_eq_some_iff.mp hc) (namesEqCi_iff.mpr hkn)

theorem lookupCi_eq : lookupCi upper d n
    = requireDir d >>= fun dir => orThrow (.err .notFound) (findCi upper dir.children n) := by
  unfold lookupCi findCi
  refine congrArg (requireDir d >>= ·) (funext fun dir => ?_)
  cases dir.children.get? n with
  | some id => rfl
  | none =>
      dsimp only
      cases dir.children.entries.find? fun e => namesEqCi upper e.1.toList n.toList with
      | some e => rfl
      | none => rfl

/-- What a search by name up to case finds, and what it says when it fails. -/
theorem lookupCi_spec (ht : TreeInv s.tree) :
    wp (lookupCi upper d n)
      (fun r s' => s' = s ∧ s.fileSystem.names d r.2 = some r.1
        ∧ foldCase upper r.2 = foldCase upper n)
      (fun _ s' => s' = s ∧ ∀ k, (s.fileSystem.names d k).isSome →
        foldCase upper k ≠ foldCase upper n) s := by
  rw [lookupCi_eq, wp_bind, wp_requireDir]
  refine ⟨fun dir hdir => ⟨fun hkind => ⟨rfl, fun k hk => ?_⟩, fun _ => ?_⟩,
    fun hnone => ⟨rfl, fun k hk => ?_⟩⟩
  · obtain ⟨c, hc⟩ := Option.isSome_iff_exists.mp hk
    exact absurd (Inodes.names_eq_some_iff.mp hc)
      (Inodes.no_entries hdir (ht.ns.leaf d dir hdir hkind) k c)
  · have hnames : ∀ k, s.fileSystem.names d k = dir.children.get? k :=
      fun k => Inodes.names_of_dir hdir
    rw [wp_orThrow]
    refine ⟨fun r hr => ?_, fun hnone => ⟨rfl, fun k hk => ?_⟩⟩
    · obtain ⟨hget, hfold⟩ := findCi_some hr
      exact ⟨rfl, (hnames r.2).trans hget, hfold⟩
    · rw [hnames] at hk
      exact findCi_none hnone hk
  · obtain ⟨c, hc⟩ := Option.isSome_iff_exists.mp hk
    obtain ⟨i, hi, -⟩ := Inodes.names_eq_some_iff.mp hc
    rw [hnone] at hi
    cases hi

theorem lookupPathCi_spec (ht : TreeInv s.tree) (hfree : CaseFree upper s.fileSystem.names)
    {path : String} :
    wp (lookupPathCi upper path) (fun id s' => s' = s ∧ (s.volume upper).Resolves upper path id)
      (fun _ s' => s' = s) s := by
  have hwalk : ∀ (segs : List String) (cur : FileId),
      wp (segs.foldlM (fun cur seg => Prod.fst <$> lookupCi upper cur seg) cur)
        (fun id s' => s' = s ∧ (s.volume upper).Walks upper cur segs id) (fun _ s' => s' = s) s := by
    intro segs
    induction segs with
    | nil => exact fun cur => ⟨rfl, rfl⟩
    | cons seg segs ih =>
        intro cur
        rw [List.foldlM_cons, wp_bind, wp_map]
        refine wp_mono (lookupCi_spec ht) ?_ fun _ _ h => h.1
        rintro r s' ⟨rfl, hname, hfold⟩
        refine wp_mono (ih r.1) ?_ fun _ _ h => h
        rintro id s' ⟨rfl, hrest⟩
        exact ⟨rfl, r, (entriesOf_eq_some hfree).mpr ⟨hname, hfold⟩, hrest⟩
  unfold lookupPathCi
  rw [wp_bind, wp_get]
  exact hwalk _ _

/-- The one state in which a directory is looked at. -/
theorem requireDir_ok {dir : Inode} {s' : Vfs} (h : requireDir d s = .ok dir s') :
    s' = s ∧ s.tree.inodes.get? d = some dir := by
  have hspec : wp (requireDir d) (fun i s' => s' = s ∧ s.tree.inodes.get? d = some i)
      (fun _ _ => True) s :=
    wp_requireDir.mpr ⟨fun i hi => ⟨fun _ => trivial, fun _ => ⟨rfl, hi⟩⟩, fun _ => trivial⟩
  have hread := wp_ok hspec h
  exact hread

/-- A name that is there exactly is found. -/
theorem lookupCi_of_lookup {id : FileId} {s' : Vfs} (h : lookup d n s = .ok id s') :
    lookupCi upper d n s = .ok (id, n) s' := by
  have hlookup : lookup d n s = EStateM.bind (requireDir d)
      (fun dir => orThrow (.err .notFound) (dir.children.get? n)) s := rfl
  have hci : lookupCi upper d n s = EStateM.bind (requireDir d)
      (fun dir => orThrow (.err .notFound) (findCi upper dir.children n)) s :=
    congrFun lookupCi_eq s
  rw [hlookup] at h
  rw [hci]
  unfold EStateM.bind at h ⊢
  cases hdir : requireDir d s with
  | error e s₁ =>
      rw [hdir] at h
      cases h
  | ok dir s₁ =>
      rw [hdir] at h
      dsimp only at h ⊢
      unfold findCi
      cases hget : dir.children.get? n with
      | none =>
          rw [hget] at h
          cases h
      | some c =>
          rw [hget] at h
          cases h
          rfl

/-- Without two names for one, the case does not matter. -/
theorem lookupCi_congr (hfree : CaseFree upper s.fileSystem.names)
    (hnm : foldCase upper n = foldCase upper m) :
    lookupCi upper d n s = lookupCi upper d m s := by
  have hci : ∀ k, lookupCi upper d k s = EStateM.bind (requireDir d)
      (fun dir => orThrow (.err .notFound) (findCi upper dir.children k)) s :=
    fun k => congrFun lookupCi_eq s
  rw [hci, hci]
  unfold EStateM.bind
  cases hdir : requireDir d s with
  | error e s₁ => rfl
  | ok dir s₁ =>
      obtain ⟨rfl, hi⟩ := requireDir_ok hdir
      dsimp only
      have hnames : ∀ k, s₁.fileSystem.names d k = dir.children.get? k :=
        fun k => Inodes.names_of_dir hi
      -- what is found in one case is found in the other
      have hfind : ∀ {a b : String} {r : FileId × String}, foldCase upper a = foldCase upper b →
          findCi upper dir.children a = some r → findCi upper dir.children b = some r := by
        intro a b r hab hr
        obtain ⟨hget, hfold⟩ := findCi_some hr
        have hsome : (dir.children.get? r.2).isSome := by rw [hget]; rfl
        cases hb : findCi upper dir.children b with
        | none => exact absurd (hfold.trans hab) (findCi_none hb hsome)
        | some r' =>
            obtain ⟨hget', hfold'⟩ := findCi_some hb
            have hsome' : (dir.children.get? r'.2).isSome := by rw [hget']; rfl
            have hname : r'.2 = r.2 := hfree d r'.2 r.2 ((hnames _).symm ▸ hsome')
              ((hnames _).symm ▸ hsome) (hfold'.trans (hab.symm.trans hfold.symm))
            rw [hname, hget] at hget'
            exact congrArg some (Prod.ext (Option.some.inj hget').symm hname)
      have heq : findCi upper dir.children n = findCi upper dir.children m :=
        Option.ext fun r => ⟨hfind hnm, hfind hnm.symm⟩
      rw [heq]

/-! ## Paths -/

/-- Two spellings of one path. -/
def SamePath (upper : Char → List Char) (p q : String) : Prop :=
  (segments p).map (foldCase upper) = (segments q).map (foldCase upper)

/-- A search leaves the state as it is. -/
theorem lookupCi_state {r : FileId × String} {s' : Vfs} (h : lookupCi upper d n s = .ok r s') :
    s' = s := by
  have hspec : wp (lookupCi upper d n) (fun _ s' => s' = s) (fun _ _ => True) s := by
    rw [lookupCi_eq, wp_bind, wp_requireDir]
    refine ⟨fun dir _ => ⟨fun _ => trivial, fun _ => ?_⟩, fun _ => trivial⟩
    rw [wp_orThrow]
    exact ⟨fun _ _ => rfl, fun _ => trivial⟩
  have hsame := wp_ok hspec h
  exact hsame

theorem lookupPathCi_congr (hfree : CaseFree upper s.fileSystem.names) {p q : String}
    (h : SamePath upper p q) : lookupPathCi upper p s = lookupPathCi upper q s := by
  have hwalk : ∀ (a b : List String) (cur : FileId),
      a.map (foldCase upper) = b.map (foldCase upper) →
      a.foldlM (fun cur seg => Prod.fst <$> lookupCi upper cur seg) cur s
        = b.foldlM (fun cur seg => Prod.fst <$> lookupCi upper cur seg) cur s := by
    intro a
    induction a with
    | nil =>
        intro b cur hab
        rw [List.map_eq_nil_iff.mp hab.symm]
    | cons n a ih =>
        intro b cur hab
        cases b with
        | nil => cases hab
        | cons m b =>
            obtain ⟨hnm, hab⟩ := List.cons.inj hab
            rw [List.foldlM_cons, List.foldlM_cons]
            show EStateM.bind (EStateM.map _ (lookupCi upper cur n)) _ s
              = EStateM.bind (EStateM.map _ (lookupCi upper cur m)) _ s
            unfold EStateM.bind EStateM.map
            rw [lookupCi_congr hfree hnm]
            cases hfound : lookupCi upper cur m s with
            | error e s₁ => rfl
            | ok r s₁ =>
                rw [lookupCi_state hfound]
                exact ih b r.1 hab
  exact hwalk _ _ _ h

/-- A path that is there exactly is found. -/
theorem lookupPathCi_of_lookupPath {path : String} {id : FileId} {s' : Vfs}
    (h : lookupPath path s = .ok id s') : lookupPathCi upper path s = .ok id s' := by
  have hwalk : ∀ (segs : List String) (cur : FileId) (s : Vfs),
      segs.foldlM lookup cur s = .ok id s' →
      segs.foldlM (fun cur seg => Prod.fst <$> lookupCi upper cur seg) cur s = .ok id s' := by
    intro segs
    induction segs with
    | nil => exact fun cur s h => h
    | cons n segs ih =>
        intro cur s h
        rw [List.foldlM_cons] at h ⊢
        have h : EStateM.bind (lookup cur n) (fun cur => segs.foldlM lookup cur) s = .ok id s' := h
        show EStateM.bind (EStateM.map _ (lookupCi upper cur n)) _ s = .ok id s'
        unfold EStateM.bind at h
        unfold EStateM.bind EStateM.map
        cases hexact : lookup cur n s with
        | error e s₁ =>
            rw [hexact] at h
            cases h
        | ok c s₁ =>
            rw [hexact] at h
            rw [lookupCi_of_lookup hexact]
            exact ih c s₁ h
  exact hwalk _ _ s h

end Vfs

end Luksbox
