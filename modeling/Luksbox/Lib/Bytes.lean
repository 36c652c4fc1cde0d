import Mathlib.Algebra.GroupWithZero.Nat
import Mathlib.Data.List.Basic
import Mathlib.Data.List.Range

/-!
# Little-endian integers

`leBytes n v` is `v` in `n` bytes, least significant first, and `leNat` reads
such a sequence back. A value that does not fit is cut to its low `n` bytes,
as a Rust `as` cast or `to_le_bytes` of a narrower type would.
-/

namespace Luksbox.Lib

/-- For the literals of `Fin 8`, an index into eight bits or eight entries. -/
instance neZeroEight : NeZero 8 := ⟨by decide⟩

def leBytes : Nat → Nat → List UInt8
  | 0, _ => []
  | n + 1, v => UInt8.ofNat (v % 256) :: leBytes n (v / 256)

def leNat : List UInt8 → Nat
  | [] => 0
  | b :: rest => b.toNat + 256 * leNat rest

@[simp] theorem leBytes_length (n v : Nat) : (leBytes n v).length = n := by
  induction n generalizing v with
  | zero => rfl
  | succ n ih => simp [leBytes, ih]

theorem leNat_leBytes (n v : Nat) : leNat (leBytes n v) = v % 256 ^ n := by
  induction n generalizing v with
  | zero => simp [leBytes, leNat, Nat.mod_one]
  | succ n ih =>
      have hb : (UInt8.ofNat (v % 256)).toNat = v % 256 := by
        simp [UInt8.toNat_ofNat']
      rw [leBytes, leNat, ih, hb, Nat.pow_succ, Nat.mul_comm (256 ^ n) 256,
        Nat.mod_mul]

theorem leNat_leBytes_of_lt {n v : Nat} (h : v < 256 ^ n) : leNat (leBytes n v) = v := by
  rw [leNat_leBytes, Nat.mod_eq_of_lt h]

theorem leBytes_leNat (l : List UInt8) : leBytes l.length (leNat l) = l := by
  induction l with
  | nil => rfl
  | cons b rest ih =>
      have hb : b.toNat < 256 := UInt8.toNat_lt b
      have hmod : (b.toNat + 256 * leNat rest) % 256 = b.toNat := by omega
      have hdiv : (b.toNat + 256 * leNat rest) / 256 = leNat rest := by omega
      rw [leNat, List.length_cons, leBytes, hmod, hdiv, ih, UInt8.ofNat_toNat]

theorem leNat_lt (l : List UInt8) : leNat l < 256 ^ l.length := by
  induction l with
  | nil => simp [leNat]
  | cons b rest ih =>
      have hb : b.toNat < 256 := UInt8.toNat_lt b
      rw [leNat, List.length_cons, Nat.pow_succ]
      omega

end Luksbox.Lib
