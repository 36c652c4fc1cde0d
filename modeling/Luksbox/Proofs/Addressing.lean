import Luksbox.Proofs.Steps

/-!
# Addressing

With sizes hidden, byte `n` of a file is byte `n + 8` of its chunks laid end to
end; otherwise it is byte `n`. In these coordinates chunk `k` is the interval
from `k * 4096` to `(k + 1) * 4096` whether sizes are hidden or not, and the
case distinctions of the source disappear. This file moves its functions over.

An overflow of a file position past `u64::MAX` is an error the source reports;
everything else it computes here without a check stays in range.
-/

namespace Luksbox

open Lib

/-- Where the bytes of a file start in its chunks. -/
def headerLen (hideSize : Bool) : Nat := if hideSize then sizeHeaderLen else 0

/-- Where the range from `lo` on begins in chunk `k`, in the chunk's own
positions. -/
def partStart (k lo : Nat) (hideSize : Bool) : Nat :=
  max (lo + headerLen hideSize) (k * chunkPlaintextSize) - k * chunkPlaintextSize

/-- Where the range up to `hi` ends in chunk `k`. -/
def partStop (k hi : Nat) (hideSize : Bool) : Nat :=
  min (hi + headerLen hideSize) ((k + 1) * chunkPlaintextSize) - k * chunkPlaintextSize

variable {k lo hi n : Nat} {hide : Bool}

theorem headerLen_le : headerLen hide ≤ sizeHeaderLen := by
  unfold headerLen
  split
  · exact le_refl _
  · exact Nat.zero_le _

theorem partStop_le : partStop k hi hide ≤ chunkPlaintextSize := by
  unfold partStop
  rw [Nat.succ_mul]
  omega

theorem fileToChunk_eq_ok {r : Nat × Nat} (h : fileToChunk n hide = .ok r) :
    r = ((n + headerLen hide) / chunkPlaintextSize, (n + headerLen hide) % chunkPlaintextSize) ∧
      n + headerLen hide ≤ u64Max := by
  have htotal : (if hide then n + sizeHeaderLen else n) = n + headerLen hide := by
    unfold headerLen
    split <;> rfl
  unfold fileToChunk at h
  simp only [htotal] at h
  split at h
  · cases h
  · next hle =>
      injection h with h
      exact ⟨h.symm, Nat.not_lt.mp hle⟩

theorem fileToChunk_error {e : Failure} (h : fileToChunk n hide = .error e) :
    e = .err .offsetOverflow := by
  unfold fileToChunk at h
  generalize (if hide then n + sizeHeaderLen else n) = total at h
  simp only at h
  split at h
  · injection h with h
    exact h.symm
  · cases h

/-- The file bytes of a chunk, moved over. -/
theorem chunkFileRange_cases :
    chunkFileRange k hide = .error (.err .offsetOverflow) ∨
      ∃ cfs cfe, chunkFileRange k hide = .ok (cfs, cfe) ∧
        cfs + headerLen hide = max (k * chunkPlaintextSize) (headerLen hide) ∧
        cfe + headerLen hide = (k + 1) * chunkPlaintextSize ∧
        dataStart k hide + k * chunkPlaintextSize =
          max (k * chunkPlaintextSize) (headerLen hide) := by
  have hsize : chunkPlaintextSize = 4096 := rfl
  have hhdr : sizeHeaderLen = 8 := rfl
  unfold chunkFileRange dataStart headerLen
  by_cases hzero : hide = true ∧ k = 0
  · rw [if_pos hzero, if_pos hzero, if_pos hzero.1, hzero.2]
    exact Or.inr ⟨_, _, rfl, by omega, by omega, by omega⟩
  · rw [if_neg hzero, if_neg hzero]
    generalize hstart : (if hide = true then
      chunkPlaintextSize - sizeHeaderLen + (k - 1) * chunkPlaintextSize
      else k * chunkPlaintextSize) = start
    have hstart : start + (if hide = true then sizeHeaderLen else 0) = k * chunkPlaintextSize := by
      rw [← hstart, hsize, hhdr]
      split
      · have hk : k ≠ 0 := fun hk => hzero ⟨‹_›, hk⟩
        omega
      · omega
    have hhide : (if hide = true then sizeHeaderLen else 0) ≤ k * chunkPlaintextSize := by omega
    simp only
    split
    · exact Or.inl rfl
    · refine Or.inr ⟨_, _, rfl, ?_, ?_, ?_⟩
      · rw [Nat.max_eq_left hhide]
        exact hstart
      · rw [Nat.succ_mul]
        omega
      · rw [Nat.max_eq_left hhide, Nat.zero_add]

theorem addU_small {a b : Nat} (h : a + b ≤ u64Max) : addU a b = .ok (a + b) := by
  unfold addU
  rw [if_neg (Nat.not_lt.mpr h)]

theorem subU_of_le {a b : Nat} (h : b ≤ a) : subU a b = .ok (a - b) := by
  unfold subU
  rw [if_neg (Nat.not_lt.mpr h)]

theorem addU_eq_ok {a b r : Nat} (h : addU a b = .ok r) : r = a + b ∧ a + b ≤ u64Max := by
  unfold addU at h
  split at h
  · cases h
  · next hle =>
      injection h with h
      exact ⟨h.symm, Nat.not_lt.mp hle⟩

theorem index_eq_ok {α : Type} {l : List α} {i : Nat} {a : α} (h : index l i = .ok a) :
    l[i]? = some a := by
  unfold index at h
  split at h
  · next heq =>
      injection h with h
      rw [heq, h]
  · cases h

theorem index_error {α : Type} {l : List α} {i : Nat} {e : Failure} (h : index l i = .error e) :
    l.length ≤ i := by
  unfold index at h
  split at h
  · cases h
  · next heq => exact List.getElem?_eq_none_iff.mp heq

theorem sliceList_eq_ok {α : Type} {l r : List α} {a b : Nat} (h : sliceList l a b = .ok r) :
    r = (l.drop a).take (b - a) ∧ a ≤ b ∧ b ≤ l.length := by
  unfold sliceList at h
  split at h
  · cases h
  · next hno =>
      injection h with h
      exact ⟨h.symm, by omega, by omega⟩

theorem sliceList_error {α : Type} {l : List α} {a b : Nat} {e : Failure}
    (h : sliceList l a b = .error e) : b < a ∨ l.length < b := by
  unfold sliceList at h
  split at h
  · next hbad => exact hbad
  · cases h

theorem checkSlice_ok {a b : Nat} (hab : a ≤ b) (hb : b ≤ chunkPlaintextSize) :
    checkSlice a b = .ok () := by
  unfold checkSlice
  rw [if_neg (by omega)]

/-- The part of a chunk that a range covers which reaches the chunk from both
sides. -/
theorem coveredPart_cases (hlo : lo + headerLen hide < (k + 1) * chunkPlaintextSize)
    (hhi : k * chunkPlaintextSize < hi + headerLen hide) (hle : lo ≤ hi) :
    coveredPart k lo hi hide = .error (.err .offsetOverflow) ∨
      coveredPart k lo hi hide = .ok (partStart k lo hide, partStop k hi hide) := by
  unfold coveredPart
  rcases @chunkFileRange_cases k hide with herr | ⟨cfs, cfe, hok, hcfs, hcfe, hds⟩
  · exact Or.inl (by rw [herr]; rfl)
  · right
    rw [hok]
    have hsucc : (k + 1) * chunkPlaintextSize = k * chunkPlaintextSize + chunkPlaintextSize :=
      Nat.succ_mul k chunkPlaintextSize
    have hsize : chunkPlaintextSize = 4096 := rfl
    have hmax : u64Max = 2 ^ 64 - 1 := rfl
    have hps : partStart k lo hide ≤ chunkPlaintextSize := by
      unfold partStart
      rw [Nat.sub_le_iff_le_add]
      exact max_le (by omega) (by omega)
    have hstart : dataStart k hide + (max lo cfs - cfs) = partStart k lo hide := by
      unfold partStart
      omega
    have hstop : dataStart k hide + (min hi cfe - cfs) = partStop k hi hide := by
      unfold partStop
      omega
    have hpe := @partStop_le k hi hide
    show (do
      let _ ← subU (min hi cfe - cfs) (max lo cfs - cfs)
      let start ← addU (dataStart k hide) (max lo cfs - cfs)
      let stop ← addU (dataStart k hide) (min hi cfe - cfs)
      .ok (start, stop)) = _
    rw [subU_of_le (by omega), addU_small (by omega), addU_small (by omega), hstart, hstop]
    rfl

/-- And then it is not empty the wrong way round. -/
theorem partStart_le_partStop (hlo : lo + headerLen hide < (k + 1) * chunkPlaintextSize)
    (hhi : k * chunkPlaintextSize < hi + headerLen hide) (hle : lo ≤ hi) :
    partStart k lo hide ≤ partStop k hi hide := by
  unfold partStart partStop
  rw [Nat.succ_mul] at *
  omega

/-- A range that is to be cleared misses the chunk, or leaves a part of it. -/
theorem holePart_cases :
    holePart k lo hi hide = .error (.err .offsetOverflow) ∨
      (holePart k lo hi hide = .ok none ∧ partStop k hi hide ≤ partStart k lo hide) ∨
      (holePart k lo hi hide = .ok (some (partStart k lo hide, partStop k hi hide)) ∧
        partStart k lo hide < partStop k hi hide) := by
  unfold holePart
  rcases @chunkFileRange_cases k hide with herr | ⟨cfs, cfe, hok, hcfs, hcfe, hds⟩
  · exact Or.inl (by rw [herr]; rfl)
  · right
    rw [hok]
    have hsucc : (k + 1) * chunkPlaintextSize = k * chunkPlaintextSize + chunkPlaintextSize :=
      Nat.succ_mul k chunkPlaintextSize
    have hsize : chunkPlaintextSize = 4096 := rfl
    have hmax : u64Max = 2 ^ 64 - 1 := rfl
    have hpe := @partStop_le k hi hide
    have hhdr := @headerLen_le hide
    have hhdr8 : sizeHeaderLen = 8 := rfl
    simp only [bind, Except.bind]
    split
    · next hempty =>
        refine Or.inl ⟨rfl, ?_⟩
        unfold partStart partStop
        omega
    · next hne =>
        have hstart : dataStart k hide + (max lo cfs - cfs) = partStart k lo hide := by
          unfold partStart
          omega
        have hstop : dataStart k hide + (min hi cfe - cfs) = partStop k hi hide := by
          unfold partStop
          omega
        have hlt : partStart k lo hide < partStop k hi hide := by omega
        refine Or.inr ⟨?_, hlt⟩
        rw [addU_small (by omega), hstart, addU_small (by omega), hstop]

end Luksbox
