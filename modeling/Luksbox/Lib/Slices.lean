import Luksbox.Lib.Buffer
import Mathlib.Data.List.Infix

/-!
# Fields that follow each other in a byte string

A parser of a format without a fixed layout walks along the input: it indexes
and slices at a place that it has computed from what it read before. `HasAt l i m`
says that `m` stands in `l` from place `i` on. Indexing and slicing succeed
exactly if something stands there, and two fields stand one behind the other
exactly if their concatenation does (`hasAt_append`), so that "what was written
is read" and "what is read is what was written" are the two directions of one
equivalence.
-/

namespace Luksbox.Lib

variable {α : Type} {l m m₁ m₂ : List α} {i j : Nat}

/-- `l[lo..hi]`, which is out of range for `none`. -/
def sliceOf (l : List α) (lo hi : Nat) : Option (List α) :=
  if lo ≤ hi ∧ hi ≤ l.length then some ((l.drop lo).take (hi - lo)) else none

def HasAt (l : List α) (i : Nat) (m : List α) : Prop := i ≤ l.length ∧ m <+: l.drop i

theorem HasAt.le (h : HasAt l i m) : i + m.length ≤ l.length := by
  have hlen := h.2.length_le
  have hi := h.1
  rw [List.length_drop] at hlen
  omega

theorem hasAt_nil (h : i ≤ l.length) : HasAt l i [] := ⟨h, List.nil_prefix⟩

/-- Two fields, one behind the other. -/
theorem hasAt_append : HasAt l i (m₁ ++ m₂) ↔ HasAt l i m₁ ∧ HasAt l (i + m₁.length) m₂ := by
  constructor
  · intro h
    have hle := h.le
    rw [List.length_append] at hle
    obtain ⟨rest, hrest⟩ := h.2
    rw [List.append_assoc] at hrest
    refine ⟨⟨h.1, m₂ ++ rest, hrest⟩, by omega, rest, ?_⟩
    rw [← List.drop_drop, ← hrest, List.drop_left]
  · rintro ⟨⟨hi, rest, hrest⟩, -, rest', hrest'⟩
    rw [← List.drop_drop, ← hrest, List.drop_left] at hrest'
    refine ⟨hi, rest', ?_⟩
    rw [List.append_assoc, hrest', hrest]

/-- What stands there and reaches to the end is all there is. -/
theorem HasAt.drop_eq (h : HasAt l i m) (hlen : i + m.length = l.length) : l.drop i = m := by
  refine (h.2.eq_of_length ?_).symm
  rw [List.length_drop]
  omega

/-- One place holds one sequence of a length. -/
theorem HasAt.unique (h : HasAt l i m₁) (h' : HasAt l i m₂) (hlen : m₁.length = m₂.length) :
    m₁ = m₂ :=
  (List.prefix_of_prefix_length_le h.2 h'.2 hlen.le).eq_of_length hlen

theorem hasAt_drop (h : i ≤ l.length) : HasAt l i (l.drop i) := ⟨h, List.prefix_rfl⟩

theorem getElem?_eq_some_iff_hasAt {a : α} : l[i]? = some a ↔ HasAt l i [a] := by
  constructor
  · intro h
    obtain ⟨hi, ha⟩ := List.getElem?_eq_some_iff.mp h
    refine ⟨hi.le, l.drop (i + 1), ?_⟩
    rw [List.drop_eq_getElem_cons hi, ha]
    rfl
  · rintro ⟨-, rest, hrest⟩
    have hget : (l.drop i)[0]? = some a := by rw [← hrest]; rfl
    rw [List.getElem?_drop, Nat.add_zero] at hget
    exact hget

theorem sliceOf_eq_some_iff : sliceOf l i j = some m ↔ j = i + m.length ∧ HasAt l i m := by
  unfold sliceOf
  constructor
  · intro h
    split at h
    next hrange =>
      have hm := Option.some.inj h
      have hlen : m.length = j - i := by
        rw [← hm, List.length_take, List.length_drop]
        omega
      refine ⟨by omega, by omega, ?_⟩
      rw [← hm]
      exact List.take_prefix _ _
    · cases h
  · rintro ⟨rfl, h⟩
    rw [if_pos ⟨Nat.le_add_right _ _, h.le⟩, Nat.add_sub_cancel_left,
      ← List.prefix_iff_eq_take.mp h.2]

theorem sliceOf_of_le (hij : i ≤ j) (hj : j ≤ l.length) :
    ∃ m, sliceOf l i j = some m ∧ m.length = j - i := by
  unfold sliceOf
  rw [if_pos ⟨hij, hj⟩]
  refine ⟨_, rfl, ?_⟩
  rw [List.length_take, List.length_drop]
  omega

theorem getElem?_of_lt (hi : i < l.length) : ∃ a, l[i]? = some a :=
  ⟨_, List.getElem?_eq_getElem hi⟩

/-! ## Arrays -/

section Arrays

variable {buf : List UInt8} {off n : Nat}

/-- `buf[off..off + n]` copied into an array of its length. -/
def arrayAt (buf : List UInt8) (off n : Nat) : Option (Bytes n) :=
  if h : off + n ≤ buf.length then
    some ⟨(buf.drop off).take n, by
      rw [List.length_take, List.length_drop]
      omega⟩
  else none

theorem arrayAt_eq_some {x : Bytes n} : arrayAt buf off n = some x ↔ HasAt buf off x.val := by
  unfold arrayAt
  constructor
  · intro h
    split at h
    next hle =>
      rw [← Option.some.inj h]
      exact ⟨by omega, List.take_prefix _ _⟩
    · cases h
  · intro h
    have hle := h.le
    rw [x.length_val] at hle
    rw [dif_pos hle]
    refine congrArg some (Subtype.ext ?_)
    have hprefix := List.prefix_iff_eq_take.mp h.2
    rw [x.length_val] at hprefix
    exact hprefix.symm

end Arrays

end Luksbox.Lib
