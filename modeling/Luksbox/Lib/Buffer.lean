import Luksbox.Lib.Bytes

/-!
# Fixed-size buffers with fields at fixed places

A record on disk is written by copying its fields into a buffer and read by
slicing them out again. `Buf n` is a buffer of `n` bytes, `put` and `read` are
these two operations, and `putAll` is a sequence of copies. When the fields
follow each other without overlap, each of them reads back as what was put
there, whatever the buffer held before (`read_putAll`), so that a codec is
reduced to its table of offsets.

`Bytes n` is a sequence of exactly `n` bytes.
-/

namespace Luksbox.Lib

/-- Exactly `n` bytes. -/
abbrev Bytes (n : Nat) := { l : List UInt8 // l.length = n }

def Bytes.zero (n : Nat) : Bytes n := ⟨List.replicate n 0, List.length_replicate⟩

@[simp] theorem Bytes.length_val {n : Nat} (x : Bytes n) : x.val.length = n := x.property

/-- A buffer of `n` bytes. -/
abbrev Buf (n : Nat) := Fin n → UInt8

namespace Buf

variable {n : Nat}

def get (b : Buf n) (i : Nat) : UInt8 := if h : i < n then b ⟨i, h⟩ else 0

/-- `b[a..a + bs.len()].copy_from_slice(bs)`. -/
def put (b : Buf n) (a : Nat) (bs : List UInt8) : Buf n := fun i =>
  if a ≤ i.val ∧ i.val < a + bs.length then bs.getD (i.val - a) 0 else b i

/-- The `len` bytes from `a` on. -/
def read (b : Buf n) (a len : Nat) : List UInt8 := (List.range' a len).map b.get

/-- `b[a..a + len]`, which is out of range for `none`. -/
def slice (b : Buf n) (a len : Nat) : Option (List UInt8) :=
  if a + len ≤ n then some (b.read a len) else none

@[simp] theorem read_length (b : Buf n) (a len : Nat) : (b.read a len).length = len := by
  simp [read]

/-- The bytes from `a` on as a value of their length. -/
def bytes (b : Buf n) (a len : Nat) : Bytes len := ⟨b.read a len, b.read_length a len⟩

/-- Part of a buffer as a buffer. -/
def sub (b : Buf n) (a m : Nat) : Buf m := fun i => b.get (a + i.val)

def toList (b : Buf n) : List UInt8 := b.read 0 n

@[simp] theorem toList_length (b : Buf n) : b.toList.length = n := b.read_length 0 n

/-- Copies one after the other, each given as its offset and its bytes. -/
def putAll (b : Buf n) (fields : List (Nat × List UInt8)) : Buf n :=
  fields.foldl (fun b f => b.put f.1 f.2) b

theorem read_getElem (b : Buf n) {a len i : Nat} (h : i < (b.read a len).length) :
    (b.read a len)[i] = b.get (a + i) := by
  simp [read]

theorem get_put (b : Buf n) {a i : Nat} {bs : List UInt8} (hi : i < n) :
    (b.put a bs).get i = if a ≤ i ∧ i < a + bs.length then bs.getD (i - a) 0 else b.get i := by
  unfold get put
  rw [dif_pos hi, dif_pos hi]

theorem read_put_self (b : Buf n) {a len : Nat} {bs : List UInt8} (hlen : bs.length = len)
    (h : a + len ≤ n) : (b.put a bs).read a len = bs := by
  refine List.ext_getElem (by rw [read_length, hlen]) fun i h₁ h₂ => ?_
  rw [read_getElem, get_put b (by omega), if_pos (by omega), Nat.add_sub_cancel_left,
    List.getD_eq_getElem?_getD, List.getElem?_eq_getElem h₂, Option.getD_some]

theorem read_put_outside (b : Buf n) {a lo len : Nat} {bs : List UInt8}
    (h : lo + len ≤ a ∨ a + bs.length ≤ lo) (hfit : lo + len ≤ n) :
    (b.put a bs).read lo len = b.read lo len := by
  refine List.ext_getElem (by rw [read_length, read_length]) fun i h₁ h₂ => ?_
  rw [read_length] at h₁
  rw [read_getElem, read_getElem, get_put b (by omega), if_neg (by omega)]

/-- Copies behind a place leave it alone. -/
theorem read_putAll_before (b : Buf n) {lo len : Nat} {fields : List (Nat × List UInt8)}
    (h : ∀ f ∈ fields, lo + len ≤ f.1) (hfit : lo + len ≤ n) :
    (b.putAll fields).read lo len = b.read lo len := by
  induction fields generalizing b with
  | nil => rfl
  | cons f rest ih =>
      show ((b.put f.1 f.2).putAll rest).read lo len = b.read lo len
      rw [ih _ fun g hg => h g (List.mem_cons_of_mem f hg),
        b.read_put_outside (Or.inl (h f List.mem_cons_self)) hfit]

/-- Fields that follow each other without overlap. -/
def InOrder (fields : List (Nat × List UInt8)) : Prop :=
  fields.Pairwise fun f g => f.1 + f.2.length ≤ g.1

/-- A field reads back as what was put there. -/
theorem read_putAll (b : Buf n) {fields : List (Nat × List UInt8)} (h : InOrder fields)
    {o len : Nat} {bs : List UInt8} (hmem : (o, bs) ∈ fields) (hlen : bs.length = len)
    (hfit : o + len ≤ n) : (b.putAll fields).read o len = bs := by
  induction fields generalizing b with
  | nil => cases hmem
  | cons f rest ih =>
      unfold InOrder at h
      rw [List.pairwise_cons] at h
      show ((b.put f.1 f.2).putAll rest).read o len = bs
      rcases List.mem_cons.mp hmem with rfl | hmem
      · rw [read_putAll_before _ (fun g hg => hlen ▸ h.1 g hg) hfit, b.read_put_self hlen hfit]
      · exact ih _ h.2 hmem

theorem bytes_putAll (b : Buf n) {fields : List (Nat × List UInt8)} (h : InOrder fields)
    {o len : Nat} {x : Bytes len} (hmem : (o, x.val) ∈ fields) (hfit : o + len ≤ n) :
    (b.putAll fields).bytes o len = x :=
  Subtype.ext (b.read_putAll h hmem x.property hfit)

/-- A byte of a buffer, by reading it. -/
theorem get_eq_of_read {m : Nat} {b : Buf n} {c : Buf m} {a : Nat}
    (h : b.read a m = c.toList) {i : Nat} (hi : i < m) : b.get (a + i) = c.get i := by
  have h₁ : i < (b.read a m).length := by rw [read_length]; exact hi
  have h₂ : i < c.toList.length := by rw [toList_length]; exact hi
  have : (b.read a m)[i] = c.toList[i] := by simp only [h]
  rw [read_getElem, show c.toList[i] = c.get (0 + i) from read_getElem c h₂, Nat.zero_add] at this
  exact this

/-- A whole buffer that was put into a larger one. -/
theorem sub_eq_of_read {m : Nat} {b : Buf n} {c : Buf m} {a : Nat}
    (h : b.read a m = c.toList) : b.sub a m = c := by
  funext i
  show b.get (a + i.val) = c i
  rw [get_eq_of_read h i.isLt]
  unfold get
  rw [dif_pos i.isLt]

theorem slice_eq {b : Buf n} {a len : Nat} (h : a + len ≤ n) :
    b.slice a len = some (b.read a len) := if_pos h

end Buf

end Luksbox.Lib
