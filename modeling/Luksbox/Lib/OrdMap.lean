import Mathlib.Algebra.GroupWithZero.Nat
import Mathlib.Data.List.Sort
import Mathlib.Data.List.Perm.Basic
import Mathlib.Order.Basic

/-!
# Ordered finite maps

A `BTreeMap` is a finite map whose iteration order is the order of its keys.
`OrdMap K V` is that and nothing more: an association list together with the
proof that its keys strictly increase, so two maps with the same lookups are
the same map (`OrdMap.ext_get?`) and an iteration over `entries` visits every
key once, in order.

Two families of lemmas carry the developments built on it. The `get?` lemmas
say what each operation does to a lookup. The `perm` lemmas say what it does
to the list of entries, up to order; they are what a proof about a sum or a
concatenation over the whole map needs, since such a proof only ever wants to
pull one entry out to the front.
-/

namespace Luksbox.Lib

/-- A finite map: entries in strictly increasing key order. -/
structure OrdMap (K V : Type) [LinearOrder K] where
  entries : List (K × V)
  sorted : entries.Pairwise (fun a b => a.1 < b.1)

namespace OrdMap

variable {K V W : Type} [LinearOrder K]

/-! ## Operations -/

def empty : OrdMap K V := ⟨[], List.Pairwise.nil⟩

instance : Inhabited (OrdMap K V) := ⟨empty⟩

/-- Lookup in an association list: the first entry under `k`. -/
def lookupIn (k : K) : List (K × V) → Option V
  | [] => none
  | (k', v) :: rest => if k = k' then some v else lookupIn k rest

/-- Insertion into a sorted association list, replacing an equal key. -/
def insertIn (k : K) (v : V) : List (K × V) → List (K × V)
  | [] => [(k, v)]
  | (k', v') :: rest =>
      if k < k' then (k, v) :: (k', v') :: rest
      else if k = k' then (k, v) :: rest
      else (k', v') :: insertIn k v rest

def get? (m : OrdMap K V) (k : K) : Option V := lookupIn k m.entries

def contains (m : OrdMap K V) (k : K) : Bool := (m.get? k).isSome

def keys (m : OrdMap K V) : List K := m.entries.map Prod.fst

def values (m : OrdMap K V) : List V := m.entries.map Prod.snd

def size (m : OrdMap K V) : Nat := m.entries.length

def isEmpty (m : OrdMap K V) : Bool := m.entries.isEmpty

theorem mem_insertIn {k : K} {v : V} {l : List (K × V)} {p : K × V}
    (h : p ∈ insertIn k v l) : p = (k, v) ∨ p ∈ l := by
  induction l with
  | nil => left; simpa [insertIn] using h
  | cons q rest ih =>
      obtain ⟨k', v'⟩ := q
      unfold insertIn at h
      split at h
      · rcases List.mem_cons.mp h with h | h
        · exact Or.inl h
        · exact Or.inr h
      · split at h
        · rcases List.mem_cons.mp h with h | h
          · exact Or.inl h
          · exact Or.inr (List.mem_cons_of_mem _ h)
        · rcases List.mem_cons.mp h with h | h
          · exact Or.inr (h ▸ List.mem_cons_self)
          · rcases ih h with h | h
            · exact Or.inl h
            · exact Or.inr (List.mem_cons_of_mem _ h)

theorem insertIn_sorted {k : K} {v : V} {l : List (K × V)}
    (h : l.Pairwise (fun a b => a.1 < b.1)) :
    (insertIn k v l).Pairwise (fun a b => a.1 < b.1) := by
  induction l with
  | nil => simp [insertIn]
  | cons q rest ih =>
      obtain ⟨k', v'⟩ := q
      obtain ⟨hhd, htl⟩ := List.pairwise_cons.mp h
      unfold insertIn
      split
      · next hlt =>
          refine List.pairwise_cons.mpr ⟨?_, h⟩
          intro p hp
          rcases List.mem_cons.mp hp with rfl | hp
          · exact hlt
          · exact lt_trans hlt (hhd p hp)
      · next hlt =>
          split
          · next heq =>
              subst heq
              exact List.pairwise_cons.mpr ⟨hhd, htl⟩
          · next hne =>
              refine List.pairwise_cons.mpr ⟨?_, ih htl⟩
              intro p hp
              rcases mem_insertIn hp with rfl | hp
              · exact lt_of_le_of_ne (not_lt.mp hlt) (Ne.symm hne)
              · exact hhd p hp

theorem insertIn_past {k : K} {v : V} {l : List (K × V)} (h : ∀ p ∈ l, p.1 < k) :
    insertIn k v l = l ++ [(k, v)] := by
  induction l with
  | nil => rfl
  | cons p rest ih =>
      have hlt : p.1 < k := h p List.mem_cons_self
      unfold insertIn
      rw [if_neg (not_lt_of_gt hlt), if_neg (ne_of_gt hlt),
        ih fun q hq => h q (List.mem_cons_of_mem _ hq)]
      rfl

def insert (m : OrdMap K V) (k : K) (v : V) : OrdMap K V :=
  ⟨insertIn k v m.entries, insertIn_sorted m.sorted⟩

def erase (m : OrdMap K V) (k : K) : OrdMap K V :=
  ⟨m.entries.filter (fun p => decide (p.1 ≠ k)), m.sorted.filter _⟩

def mapVals (m : OrdMap K V) (f : V → W) : OrdMap K W :=
  ⟨m.entries.map (fun p => (p.1, f p.2)), List.pairwise_map.mpr m.sorted⟩

def mapWithKey (m : OrdMap K V) (f : K → V → W) : OrdMap K W :=
  ⟨m.entries.map (fun p => (p.1, f p.1 p.2)), List.pairwise_map.mpr m.sorted⟩

/-- Update in place the value under `k`, if there is one. -/
def adjust (m : OrdMap K V) (k : K) (f : V → V) : OrdMap K V :=
  match m.get? k with
  | some v => m.insert k (f v)
  | none => m

/-! ## Lookups -/

theorem mem_of_lookupIn {k : K} {v : V} {l : List (K × V)}
    (h : lookupIn k l = some v) : (k, v) ∈ l := by
  induction l with
  | nil => cases h
  | cons q rest ih =>
      obtain ⟨k', v'⟩ := q
      unfold lookupIn at h
      split at h
      · next heq =>
          injection h with h
          rw [heq, h]
          exact List.mem_cons_self
      · exact List.mem_cons_of_mem _ (ih h)

theorem lookupIn_of_mem {k : K} {v : V} {l : List (K × V)}
    (hs : l.Pairwise (fun a b => a.1 < b.1)) (h : (k, v) ∈ l) :
    lookupIn k l = some v := by
  induction l with
  | nil => cases h
  | cons q rest ih =>
      obtain ⟨k', v'⟩ := q
      obtain ⟨hhd, htl⟩ := List.pairwise_cons.mp hs
      unfold lookupIn
      rcases List.mem_cons.mp h with heq | hmem
      · injection heq with hk hv
        rw [if_pos hk, hv]
      · have hlt := hhd _ hmem
        rw [if_neg (ne_of_gt hlt)]
        exact ih htl hmem

theorem get?_eq_some_iff {m : OrdMap K V} {k : K} {v : V} :
    m.get? k = some v ↔ (k, v) ∈ m.entries :=
  ⟨mem_of_lookupIn, lookupIn_of_mem m.sorted⟩

theorem mem_values_of_get? {m : OrdMap K V} {k : K} {v : V}
    (h : m.get? k = some v) : v ∈ m.values :=
  List.mem_map.mpr ⟨(k, v), get?_eq_some_iff.mp h, rfl⟩

theorem mem_values_iff {m : OrdMap K V} {v : V} :
    v ∈ m.values ↔ ∃ k, m.get? k = some v := by
  constructor
  · intro h
    obtain ⟨⟨k, w⟩, hmem, rfl⟩ := List.mem_map.mp h
    exact ⟨k, get?_eq_some_iff.mpr hmem⟩
  · rintro ⟨k, hk⟩
    exact mem_values_of_get? hk

theorem mem_keys_iff {m : OrdMap K V} {k : K} :
    k ∈ m.keys ↔ ∃ v, m.get? k = some v := by
  constructor
  · intro h
    obtain ⟨⟨k', v⟩, hmem, rfl⟩ := List.mem_map.mp h
    exact ⟨v, get?_eq_some_iff.mpr hmem⟩
  · rintro ⟨v, hv⟩
    exact List.mem_map.mpr ⟨(k, v), get?_eq_some_iff.mp hv, rfl⟩

theorem contains_iff {m : OrdMap K V} {k : K} :
    m.contains k = true ↔ ∃ v, m.get? k = some v := Option.isSome_iff_exists

theorem contains_eq_false_iff {m : OrdMap K V} {k : K} :
    m.contains k = false ↔ m.get? k = none := by
  unfold contains
  cases m.get? k <;> simp

theorem keys_nodup (m : OrdMap K V) : m.keys.Nodup :=
  List.pairwise_map.mpr (m.sorted.imp fun h => ne_of_lt h)

theorem entries_nodup (m : OrdMap K V) : m.entries.Nodup := by
  refine m.sorted.imp ?_
  rintro a b hlt rfl
  exact lt_irrefl _ hlt

theorem isEmpty_iff {m : OrdMap K V} : m.isEmpty = true ↔ ∀ k, m.get? k = none := by
  unfold isEmpty
  rw [List.isEmpty_iff]
  constructor
  · intro h k
    unfold get?
    rw [h]
    rfl
  · intro h
    rcases hl : m.entries with _ | ⟨⟨k, v⟩, rest⟩
    · rfl
    · have hk : m.get? k = some v := get?_eq_some_iff.mpr (by rw [hl]; exact List.mem_cons_self)
      rw [h k] at hk
      cases hk

@[simp] theorem get?_empty (k : K) : (empty : OrdMap K V).get? k = none := rfl

theorem lookupIn_insertIn {k k' : K} {v : V} {l : List (K × V)} :
    lookupIn k' (insertIn k v l) = if k' = k then some v else lookupIn k' l := by
  induction l with
  | nil => simp [insertIn, lookupIn]
  | cons q rest ih =>
      obtain ⟨q₁, q₂⟩ := q
      unfold insertIn
      split
      · simp only [lookupIn]
      · split
        · next heq =>
            subst heq
            simp only [lookupIn]
            split <;> rfl
        · next hlt hne =>
            simp only [lookupIn, ih]
            split
            · next h1 =>
                subst h1
                rw [if_neg (fun h => hne h.symm)]
            · rfl

theorem get?_insert {m : OrdMap K V} {k k' : K} {v : V} :
    (m.insert k v).get? k' = if k' = k then some v else m.get? k' :=
  lookupIn_insertIn

@[simp] theorem get?_insert_self {m : OrdMap K V} {k : K} {v : V} :
    (m.insert k v).get? k = some v := by rw [get?_insert, if_pos rfl]

theorem get?_insert_of_ne {m : OrdMap K V} {k k' : K} {v : V} (h : k' ≠ k) :
    (m.insert k v).get? k' = m.get? k' := by rw [get?_insert, if_neg h]

theorem get?_erase {m : OrdMap K V} {k k' : K} :
    (m.erase k).get? k' = if k' = k then none else m.get? k' := by
  split
  · next heq =>
      subst heq
      cases hg : (m.erase k').get? k' with
      | none => rfl
      | some v =>
          have := get?_eq_some_iff.mp hg
          simp [erase] at this
  · next hne =>
      cases hg : m.get? k' with
      | none =>
          cases hg' : (m.erase k).get? k' with
          | none => rfl
          | some v =>
              have hmem := get?_eq_some_iff.mp hg'
              have := get?_eq_some_iff.mpr (List.mem_filter.mp hmem).1
              rw [hg] at this
              cases this
      | some v =>
          refine get?_eq_some_iff.mpr (List.mem_filter.mpr ⟨get?_eq_some_iff.mp hg, ?_⟩)
          simpa using hne

@[simp] theorem get?_erase_self {m : OrdMap K V} {k : K} :
    (m.erase k).get? k = none := by rw [get?_erase, if_pos rfl]

theorem get?_erase_of_ne {m : OrdMap K V} {k k' : K} (h : k' ≠ k) :
    (m.erase k).get? k' = m.get? k' := by rw [get?_erase, if_neg h]

theorem lookupIn_map {k : K} {f : V → W} {l : List (K × V)} :
    lookupIn k (l.map fun p => (p.1, f p.2)) = (lookupIn k l).map f := by
  induction l with
  | nil => rfl
  | cons q rest ih =>
      simp only [List.map_cons, lookupIn, ih]
      split <;> rfl

theorem lookupIn_mapWithKey {k : K} {f : K → V → W} {l : List (K × V)} :
    lookupIn k (l.map fun p => (p.1, f p.1 p.2)) = (lookupIn k l).map (f k) := by
  induction l with
  | nil => rfl
  | cons q rest ih =>
      simp only [List.map_cons, lookupIn, ih]
      split
      · next h => rw [h]; rfl
      · rfl

theorem get?_mapWithKey {m : OrdMap K V} {f : K → V → W} {k : K} :
    (m.mapWithKey f).get? k = (m.get? k).map (f k) := lookupIn_mapWithKey

theorem get?_mapVals {m : OrdMap K V} {f : V → W} {k : K} :
    (m.mapVals f).get? k = (m.get? k).map f := lookupIn_map

theorem get?_adjust {m : OrdMap K V} {k k' : K} {f : V → V} :
    (m.adjust k f).get? k' = if k' = k then (m.get? k').map f else m.get? k' := by
  unfold adjust
  cases hg : m.get? k with
  | some v =>
      simp only [get?_insert]
      split
      · next h => rw [h, hg]; rfl
      · rfl
  | none =>
      show m.get? k' = _
      split
      · next h => rw [h, hg]; rfl
      · rfl

theorem adjust_eq_insert {m : OrdMap K V} {k : K} {v : V} {f : V → V}
    (h : m.get? k = some v) : m.adjust k f = m.insert k (f v) := by
  unfold adjust
  rw [h]

/-! ## Extensionality -/

theorem ext_entries {m m' : OrdMap K V} (h : m.entries = m'.entries) : m = m' := by
  cases m
  cases m'
  cases h
  rfl

/-- Two maps with the same lookups are equal. -/
theorem ext_get? {m m' : OrdMap K V} (h : ∀ k, m.get? k = m'.get? k) : m = m' := by
  apply ext_entries
  have hmem : ∀ p, p ∈ m.entries ↔ p ∈ m'.entries := by
    rintro ⟨k, v⟩
    rw [← get?_eq_some_iff, ← get?_eq_some_iff, h k]
  have hperm := (List.perm_ext_iff_of_nodup m.entries_nodup m'.entries_nodup).mpr hmem
  exact hperm.eq_of_pairwise
    (fun a b _ _ hab hba => absurd hab (lt_asymm hba)) m.sorted m'.sorted

theorem adjust_eq_mapWithKey {m : OrdMap K V} {k : K} {f : V → V} :
    m.adjust k f = m.mapWithKey fun k' v => if k' = k then f v else v := by
  apply ext_get?
  intro k'
  rw [get?_adjust, get?_mapWithKey]
  split
  · rfl
  · exact Option.map_id'.symm

theorem erase_insert {m : OrdMap K V} {k : K} {v : V} :
    (m.insert k v).erase k = m.erase k := by
  apply ext_get?
  intro k'
  rw [get?_erase, get?_erase]
  split
  · rfl
  · next h => exact get?_insert_of_ne h

theorem erase_of_get?_none {m : OrdMap K V} {k : K} (h : m.get? k = none) :
    m.erase k = m := by
  apply ext_get?
  intro k'
  rw [get?_erase]
  split
  · next heq => rw [heq, h]
  · rfl

theorem insert_get? {m : OrdMap K V} {k : K} {v : V} (h : m.get? k = some v) :
    m.insert k v = m := by
  apply ext_get?
  intro k'
  rw [get?_insert]
  split
  · next heq => rw [heq, h]
  · rfl

theorem insert_insert {m : OrdMap K V} {k : K} {v w : V} :
    (m.insert k v).insert k w = m.insert k w := by
  apply ext_get?
  intro k'
  rw [get?_insert, get?_insert, get?_insert]
  split <;> rfl

theorem erase_comm {m : OrdMap K V} {k k' : K} :
    (m.erase k).erase k' = (m.erase k').erase k := by
  apply ext_get?
  intro x
  rw [get?_erase, get?_erase, get?_erase, get?_erase]
  split
  · split <;> rfl
  · rfl

theorem insert_erase {m : OrdMap K V} {k : K} {v : V} : (m.erase k).insert k v = m.insert k v := by
  apply ext_get?
  intro x
  rw [get?_insert, get?_erase, get?_insert]
  split <;> rfl

theorem mapVals_insert {m : OrdMap K V} {k : K} {v : V} {f : V → W} :
    (m.insert k v).mapVals f = (m.mapVals f).insert k (f v) := by
  apply ext_get?
  intro k'
  rw [get?_mapVals, get?_insert, get?_insert, get?_mapVals]
  split <;> rfl

theorem mapVals_erase {m : OrdMap K V} {k : K} {f : V → W} :
    (m.erase k).mapVals f = (m.mapVals f).erase k := by
  apply ext_get?
  intro k'
  rw [get?_mapVals, get?_erase, get?_erase, get?_mapVals]
  split <;> rfl

theorem mapVals_mapVals {U : Type} {m : OrdMap K V} {f : V → W} {g : W → U} :
    (m.mapVals f).mapVals g = m.mapVals (fun v => g (f v)) := by
  apply ext_get?
  intro k
  rw [get?_mapVals, get?_mapVals, get?_mapVals, Option.map_map]
  rfl

/-- An update that a projection does not see leaves the projected map alone. -/
theorem mapVals_adjust_of_eq {m : OrdMap K V} {k : K} {g : V → V} {f : V → W}
    (h : ∀ v, m.get? k = some v → f (g v) = f v) :
    (m.adjust k g).mapVals f = m.mapVals f := by
  apply ext_get?
  intro k'
  rw [get?_mapVals, get?_adjust, get?_mapVals]
  split
  · next heq =>
      subst heq
      cases hg : m.get? k' with
      | none => rfl
      | some v => simp only [Option.map_some]; rw [h v hg]
  · rfl

theorem adjust_adjust {m : OrdMap K V} {k : K} {f g : V → V} :
    (m.adjust k f).adjust k g = m.adjust k (fun v => g (f v)) := by
  apply ext_get?
  intro k'
  rw [get?_adjust, get?_adjust, get?_adjust]
  split
  · rw [Option.map_map]; rfl
  · rfl

/-- Updates that commute as functions commute as updates, wherever they are. -/
theorem adjust_comm {m : OrdMap K V} {k k' : K} {f g : V → V}
    (h : ∀ v, f (g v) = g (f v)) :
    (m.adjust k f).adjust k' g = (m.adjust k' g).adjust k f := by
  apply ext_get?
  intro x
  rw [get?_adjust, get?_adjust, get?_adjust, get?_adjust]
  by_cases hx : x = k
  · by_cases hx' : x = k'
    · simp only [if_pos hx, if_pos hx', Option.map_map, Function.comp_def, h]
    · simp only [if_pos hx, if_neg hx']
  · simp only [if_neg hx]

theorem erase_adjust {m : OrdMap K V} {k k' : K} {f : V → V} :
    (m.adjust k f).erase k' = (m.erase k').adjust k f := by
  apply ext_get?
  intro x
  rw [get?_erase, get?_adjust, get?_adjust, get?_erase]
  by_cases hx : x = k'
  · rw [if_pos hx, if_pos hx]
    split <;> rfl
  · rw [if_neg hx, if_neg hx]

theorem erase_adjust_self {m : OrdMap K V} {k : K} {f : V → V} :
    (m.adjust k f).erase k = m.erase k := by
  apply ext_get?
  intro x
  rw [get?_erase, get?_erase, get?_adjust]
  by_cases hx : x = k
  · rw [if_pos hx, if_pos hx]
  · rw [if_neg hx, if_neg hx, if_neg hx]

theorem exists_of_get?_adjust {m : OrdMap K V} {k k' : K} {f : V → V} {v : V}
    (h : (m.adjust k f).get? k' = some v) : ∃ w, m.get? k' = some w := by
  rw [get?_adjust] at h
  split at h
  · cases hg : m.get? k' with
    | none => rw [hg] at h; cases h
    | some w => exact ⟨w, rfl⟩
  · exact ⟨v, h⟩

theorem exists_of_get?_erase {m : OrdMap K V} {k k' : K} {v : V}
    (h : (m.erase k).get? k' = some v) : k' ≠ k ∧ m.get? k' = some v := by
  rw [get?_erase] at h
  split at h
  · cases h
  · next hne => exact ⟨hne, h⟩

theorem get?_adjust_of_ne {m : OrdMap K V} {k k' : K} {f : V → V} (h : k' ≠ k) :
    (m.adjust k f).get? k' = m.get? k' := by rw [get?_adjust, if_neg h]

theorem get?_adjust_self {m : OrdMap K V} {k : K} {f : V → V} :
    (m.adjust k f).get? k = (m.get? k).map f := by rw [get?_adjust, if_pos rfl]

theorem keys_mapVals {m : OrdMap K V} {f : V → W} : (m.mapVals f).keys = m.keys := by
  simp [keys, mapVals, List.map_map, Function.comp_def]

theorem values_mapVals {m : OrdMap K V} {f : V → W} :
    (m.mapVals f).values = m.values.map f := by
  simp [values, mapVals, List.map_map, Function.comp_def]

/-- What two maps that agree under a projection say about one key. -/
theorem exists_of_mapVals_eq {m m' : OrdMap K V} {f : V → W} (h : m'.mapVals f = m.mapVals f)
    {k : K} {v : V} (hv : m'.get? k = some v) : ∃ w, m.get? k = some w ∧ f v = f w := by
  have hk : (m'.mapVals f).get? k = (m.mapVals f).get? k := by rw [h]
  rw [get?_mapVals, get?_mapVals, hv] at hk
  obtain ⟨w, hw, hfw⟩ := Option.map_eq_some_iff.mp hk.symm
  exact ⟨w, hw, hfw.symm⟩

/-! ## Pulling one entry to the front -/

theorem perm_insert {m : OrdMap K V} {k : K} {v : V} :
    (m.insert k v).entries.Perm ((k, v) :: (m.erase k).entries) := by
  refine (List.perm_ext_iff_of_nodup (entries_nodup _) ?_).mpr ?_
  · refine List.nodup_cons.mpr ⟨?_, entries_nodup _⟩
    intro h
    rw [← get?_eq_some_iff, get?_erase_self] at h
    cases h
  · rintro ⟨k', v'⟩
    rw [List.mem_cons, ← get?_eq_some_iff, ← get?_eq_some_iff, get?_insert, get?_erase]
    constructor
    · intro h
      split at h
      · next heq =>
          injection h with h
          exact Or.inl (by rw [heq, h])
      · next hne => exact Or.inr (by rw [if_neg hne]; exact h)
    · rintro (h | h)
      · injection h with hk hv
        rw [if_pos hk, hv]
      · split at h
        · cases h
        · next hne => rw [if_neg hne]; exact h

theorem perm_of_get? {m : OrdMap K V} {k : K} {v : V} (h : m.get? k = some v) :
    m.entries.Perm ((k, v) :: (m.erase k).entries) := by
  have := perm_insert (m := m) (k := k) (v := v)
  rwa [insert_get? h] at this

variable {α : Type}

theorem flatMap_values_insert {m : OrdMap K V} {k : K} {v : V} {g : V → List α} :
    ((m.insert k v).values.flatMap g).Perm (g v ++ (m.erase k).values.flatMap g) := by
  simpa [values] using (perm_insert (m := m) (k := k) (v := v)).map Prod.snd |>.flatMap_right g

theorem flatMap_values_of_get? {m : OrdMap K V} {k : K} {v : V} {g : V → List α}
    (h : m.get? k = some v) :
    (m.values.flatMap g).Perm (g v ++ (m.erase k).values.flatMap g) := by
  have := flatMap_values_insert (m := m) (k := k) (v := v) (g := g)
  rwa [insert_get? h] at this

/-! ## Counting what the values hold -/

variable [DecidableEq α]

/-- How often `x` occurs in what `g` reads off the values. -/
def tally (m : OrdMap K V) (g : V → List α) (x : α) : Nat := (m.values.flatMap g).count x

theorem tally_of_get? {m : OrdMap K V} {g : V → List α} {k : K} {v : V} {x : α}
    (h : m.get? k = some v) : m.tally g x = (g v).count x + (m.erase k).tally g x := by
  unfold tally
  rw [(flatMap_values_of_get? h).count_eq, List.count_append]

theorem tally_insert {m : OrdMap K V} {g : V → List α} {k : K} {v : V} {x : α} :
    (m.insert k v).tally g x = (g v).count x + (m.erase k).tally g x := by
  unfold tally
  rw [flatMap_values_insert.count_eq, List.count_append]

theorem tally_adjust {m : OrdMap K V} {g : V → List α} {k : K} {f : V → V} {v : V} {x : α}
    (h : m.get? k = some v) :
    (m.adjust k f).tally g x + (g v).count x = m.tally g x + (g (f v)).count x := by
  rw [adjust_eq_insert h, tally_insert, tally_of_get? h]
  omega

theorem tally_insert_of_none {m : OrdMap K V} {g : V → List α} {k : K} {v : V} {x : α}
    (h : m.get? k = none) : (m.insert k v).tally g x = (g v).count x + m.tally g x := by
  rw [tally_insert, erase_of_get?_none h]

theorem tally_congr {m m' : OrdMap K V} {g : V → List α} {f : V → W} {g' : W → List α}
    (hg : ∀ v, g v = g' (f v)) (h : m'.mapVals f = m.mapVals f) {x : α} :
    m'.tally g x = m.tally g x := by
  have hview : ∀ a : OrdMap K V, a.tally g x = (a.mapVals f).tally g' x := by
    intro a
    unfold tally
    rw [values_mapVals, List.flatMap_map]
    congr 2
    funext v
    exact hg v
  rw [hview, hview, h]

/-- An update that `g` does not see. -/
theorem tally_adjust_of_eq {m : OrdMap K V} {g : V → List α} {k : K} {f : V → V} {x : α}
    (hf : ∀ v, g (f v) = g v) : (m.adjust k f).tally g x = m.tally g x := by
  cases hk : m.get? k with
  | none => simp [adjust, hk]
  | some v =>
      have h := tally_adjust (g := g) (f := f) (x := x) hk
      rw [hf v] at h
      omega

end OrdMap

end Luksbox.Lib
