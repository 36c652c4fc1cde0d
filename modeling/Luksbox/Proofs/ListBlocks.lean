import Luksbox.Proofs.Addressing
import Luksbox.Proofs.ContainerSteps

/-!
# List blocks

A block of a chunk-list chain is a plaintext whose fields lie in fixed places
over random padding, so reading a field back is a statement about overlays and
slices. A chain is a list of slots of which each opens, under the key of the
file's chain and its position in it, to its share of the references and the
reference of the slot after it (`Chained`).

What is in a chain depends on the slots of its blocks alone, and is there once
every block has been written, to a slot of its own (`Laid`).
-/

namespace Luksbox

open Lib

/-! ## Fields of a plaintext -/

namespace Chunk

theorem slice_length (c : Chunk) (a b : Nat) : (c.slice a b).length = b - a := by
  simp [slice]

theorem slice_getElem (c : Chunk) {a b i : Nat} (h : i < (c.slice a b).length) :
    (c.slice a b)[i] = c.get (a + i) := by
  simp [slice]

theorem get_overlay (c : Chunk) {a i : Nat} {bs : List UInt8} (hi : i < 4096) :
    (c.overlay a bs).get i =
      if a ≤ i ∧ i < a + bs.length then bs.getD (i - a) 0 else c.get i := by
  unfold get overlay
  rw [dif_pos hi, dif_pos hi]

/-- A slice inside what was put there. -/
theorem slice_overlay_inside (c : Chunk) {a lo hi : Nat} {bs : List UInt8} (hlo : a ≤ lo)
    (hle : lo ≤ hi) (hhi : hi ≤ a + bs.length) (hfit : hi ≤ 4096) :
    (c.overlay a bs).slice lo hi = (bs.drop (lo - a)).take (hi - lo) := by
  have hlen : ((c.overlay a bs).slice lo hi).length = ((bs.drop (lo - a)).take (hi - lo)).length := by
    rw [slice_length, List.length_take, List.length_drop]
    omega
  refine List.ext_getElem hlen fun i h₁ h₂ => ?_
  rw [slice_length] at h₁
  rw [slice_getElem, get_overlay c (by omega), if_pos (by omega), List.getElem_take,
    List.getElem_drop, List.getD_eq_getElem?_getD, List.getElem?_eq_getElem (by omega),
    Option.getD_some]
  congr 1
  omega

/-- A slice beside it. -/
theorem slice_overlay_outside (c : Chunk) {a lo hi : Nat} {bs : List UInt8}
    (h : hi ≤ a ∨ a + bs.length ≤ lo) (hfit : hi ≤ 4096) :
    (c.overlay a bs).slice lo hi = c.slice lo hi := by
  have hlen : ((c.overlay a bs).slice lo hi).length = (c.slice lo hi).length := by
    rw [slice_length, slice_length]
  refine List.ext_getElem hlen fun i h₁ h₂ => ?_
  rw [slice_length] at h₁
  rw [slice_getElem, slice_getElem, get_overlay c (by omega), if_neg (by omega)]

end Chunk

/-! ## Blocks -/

/-- A reference whose two numbers are `u64`. -/
def ChunkRef.Fits (r : ChunkRef) : Prop := r.id ≤ u64Max ∧ r.generation ≤ u64Max

theorem encodeChunkRef_length (r : ChunkRef) : (encodeChunkRef r).length = 16 := by
  simp [encodeChunkRef]

theorem decodeChunkRef_encode {r : ChunkRef} (h : r.Fits) :
    decodeChunkRef (encodeChunkRef r) = r := by
  have hu : u64Max < 256 ^ 8 := by decide
  have hid : r.id < 256 ^ 8 := h.1.trans_lt hu
  have hgen : r.generation < 256 ^ 8 := h.2.trans_lt hu
  unfold decodeChunkRef encodeChunkRef
  rw [List.take_left' (leBytes_length 8 _), List.drop_left' (leBytes_length 8 _),
    leNat_leBytes_of_lt hid, leNat_leBytes_of_lt hgen]

theorem encodedRefs_length (entries : List ChunkRef) :
    (entries.flatMap encodeChunkRef).length = entries.length * 16 := by
  induction entries with
  | nil => rfl
  | cons r rest ih =>
      rw [List.flatMap_cons, List.length_append, ih, encodeChunkRef_length, List.length_cons]
      omega

/-- The `i`-th entry lies at sixteen times `i`. -/
theorem encodedRefs_at (entries : List ChunkRef) {i : Nat} (h : i < entries.length) :
    ((entries.flatMap encodeChunkRef).drop (i * 16)).take 16 = encodeChunkRef entries[i] := by
  induction entries generalizing i with
  | nil => exact absurd h (Nat.not_lt_zero i)
  | cons r rest ih =>
      rw [List.flatMap_cons]
      cases i with
      | zero =>
          rw [Nat.zero_mul, List.drop_zero, List.take_left' (encodeChunkRef_length r)]
          rfl
      | succ i =>
          have hle : (encodeChunkRef r).length ≤ (i + 1) * 16 := by
            rw [encodeChunkRef_length]
            omega
          have hsub : (i + 1) * 16 - (encodeChunkRef r).length = i * 16 := by
            rw [encodeChunkRef_length]
            omega
          rw [List.drop_append, List.drop_eq_nil_of_le hle, List.nil_append, hsub]
          exact ih (Nat.lt_of_succ_lt_succ h)

/-- The sixteen bytes of the link. -/
def linkBytes : Option ChunkRef → List UInt8
  | some cr => encodeChunkRef cr
  | none => List.replicate 16 0

theorem linkBytes_length (next : Option ChunkRef) : (linkBytes next).length = 16 := by
  cases next with
  | none => exact List.length_replicate
  | some cr => exact encodeChunkRef_length cr

theorem encodeChunkListBlock_eq_ok {padding pt : Chunk} {entries : List ChunkRef}
    {next : Option ChunkRef} (h : encodeChunkListBlock padding entries next = .ok pt) :
    entries.length ≤ 254 ∧ pt = ((padding.overlay 0 (leBytes 4 entries.length)).overlay 4
      (entries.flatMap encodeChunkRef)).overlay 4068 (linkBytes next) := by
  unfold encodeChunkListBlock at h
  split at h
  · cases h
  · next hlen =>
      injection h with h
      refine ⟨Nat.not_lt.mp hlen, ?_⟩
      rw [← h]
      cases next with
      | none => rfl
      | some cr => rfl

/-- What `parse_chunk_list_block` reads out of a block that was packed. -/
theorem parseChunkListBlock_encode {padding pt : Chunk} {entries : List ChunkRef}
    {next : Option ChunkRef} (h : encodeChunkListBlock padding entries next = .ok pt)
    (hfits : ∀ r ∈ entries, r.Fits) (hnext : ∀ r ∈ next, r.Fits ∧ r.generation ≠ 0) :
    parseChunkListBlock pt = .ok (entries, next) := by
  obtain ⟨hlen, hpt⟩ := encodeChunkListBlock_eq_ok h
  have hrefs := encodedRefs_length entries
  have hnextLen := linkBytes_length next
  have hcount : leNat (pt.slice 0 4) = entries.length := by
    rw [hpt, Chunk.slice_overlay_outside _ (Or.inl (by omega)) (by omega),
      Chunk.slice_overlay_outside _ (Or.inl (by omega)) (by omega),
      Chunk.slice_overlay_inside _ (le_refl 0) (by omega) (by rw [leBytes_length]) (by omega),
      Nat.sub_zero, List.drop_zero, List.take_of_length_le (by rw [leBytes_length]),
      leNat_leBytes_of_lt (by omega)]
  have hentry : ∀ i (hi : i < entries.length),
      decodeChunkRef (pt.slice (4 + i * 16) (4 + i * 16 + 16)) = entries[i] := by
    intro i hi
    rw [hpt, Chunk.slice_overlay_outside _ (Or.inl (by omega)) (by omega),
      Chunk.slice_overlay_inside _ (by omega) (by omega) (by omega) (by omega),
      Nat.add_sub_cancel_left, Nat.add_sub_cancel_left, encodedRefs_at entries hi,
      decodeChunkRef_encode (hfits _ (List.getElem_mem hi))]
  have hentries : ((List.range entries.length).map fun i =>
      decodeChunkRef (pt.slice (4 + i * 16) (4 + i * 16 + 16))) = entries := by
    refine List.ext_getElem (by simp) fun i h₁ h₂ => ?_
    rw [List.getElem_map, List.getElem_range]
    exact hentry i h₂
  have hlink : pt.slice 4068 4084 = linkBytes next := by
    rw [hpt, Chunk.slice_overlay_inside _ (le_refl _) (by omega) (by rw [hnextLen]) (by omega),
      Nat.sub_self, List.drop_zero, List.take_of_length_le (by rw [hnextLen])]
  unfold parseChunkListBlock
  simp only [chunkListCountOffset, chunkListEntriesOffset, chunkListNextOffset,
    chunkListEntriesPerBlock, Nat.zero_add, hcount, hlink, hentries, Nat.reduceMul, Nat.reduceAdd]
  rw [if_neg (Nat.not_lt.mpr hlen)]
  cases next with
  | none => rfl
  | some cr =>
      obtain ⟨hcr, hgen⟩ := hnext cr rfl
      simp only [linkBytes, decodeChunkRef_encode hcr, if_neg hgen]

/-- A link that can be told from the end of the chain. -/
def ChunkRef.Links (r : ChunkRef) : Prop := r.generation ≠ 0 ∧ r.generation ≤ u64Max

theorem slotOffset_id_le {dataOffset id off : Nat} (h : slotOffset dataOffset id = .ok off) :
    id ≤ u64Max := by
  have hle := (Container.slotOffset_eq_ok h).2
  have hslot : 0 < chunkSlotSize := by decide
  calc id ≤ id * chunkSlotSize := Nat.le_mul_of_pos_right id hslot
    _ ≤ dataOffset + id * chunkSlotSize := Nat.le_add_left _ _
    _ ≤ u64Max := hle

theorem slotFits_id_le {dataOffset id : Nat} (h : slotFits dataOffset id = true) :
    id ≤ u64Max := by
  unfold slotFits at h
  cases hoff : slotOffset dataOffset id with
  | error e =>
      rw [hoff] at h
      cases h
  | ok off => exact slotOffset_id_le hoff

/-- A ref whose generation was drawn. -/
structure ChunkRef.Drawn (t : DirectoryTree) (r : ChunkRef) : Prop where
  links : r.Links
  below : r.generation < t.nextChunkGen

/-! ## Chains -/

/-- The blocks, from position `idx` of the chain on, open to these references
one after the other, and name each other in order. -/
def Chained (slots : ChunkId → Slot) (key : SubKey) (fileId : FileId) :
    Nat → List ChunkRef → List ChunkRef → Prop
  | _, [], entries => entries = []
  | idx, block :: rest, entries =>
      ∃ pt share more, slots block.id key
          (chunkAad (listFileId fileId) (idx % 2 ^ 32) block.generation) = some pt ∧
        parseChunkListBlock pt = .ok (share, rest.head?) ∧ entries = share ++ more ∧
        Chained slots key fileId (idx + 1) rest more

/-- A chain is in the slots of its blocks. -/
theorem Chained.congr {slots slots' : ChunkId → Slot} {key : SubKey} {fileId idx : Nat}
    {blocks entries : List ChunkRef} (h : Chained slots key fileId idx blocks entries)
    (hslots : ∀ b ∈ blocks, slots' b.id = slots b.id) :
    Chained slots' key fileId idx blocks entries := by
  induction blocks generalizing idx entries with
  | nil => exact h
  | cons block rest ih =>
      obtain ⟨pt, share, more, hslot, hparse, hentries, hrest⟩ := h
      refine ⟨pt, share, more, ?_, hparse, hentries, ?_⟩
      · rw [hslots block List.mem_cons_self]
        exact hslot
      · exact ih hrest fun b hb => hslots b (List.mem_cons_of_mem block hb)

/-- The head determines the blocks and what is in them. -/
theorem Chained.unique {slots : ChunkId → Slot} {key : SubKey} {fileId idx : Nat}
    {blocks blocks' entries entries' : List ChunkRef}
    (h : Chained slots key fileId idx blocks entries)
    (h' : Chained slots key fileId idx blocks' entries') (hhead : blocks'.head? = blocks.head?) :
    blocks' = blocks ∧ entries' = entries := by
  induction blocks generalizing idx blocks' entries entries' with
  | nil =>
      have hnil : blocks' = [] := List.head?_eq_none_iff.mp hhead
      subst hnil
      have h : entries = [] := h
      have h' : entries' = [] := h'
      exact ⟨rfl, h'.trans h.symm⟩
  | cons block rest ih =>
      cases blocks' with
      | nil => cases hhead
      | cons block' rest' =>
          injection hhead with hblock
          subst hblock
          obtain ⟨pt, share, more, hslot, hparse, rfl, hrest⟩ := h
          obtain ⟨pt', share', more', hslot', hparse', rfl, hrest'⟩ := h'
          have hpt : pt' = pt := Option.some.inj (hslot'.symm.trans hslot)
          subst hpt
          have hsame := Except.ok.inj (hparse'.symm.trans hparse)
          injection hsame with hshare hnext
          obtain ⟨hblocks, hmore⟩ := ih hrest hrest' hnext
          rw [hblocks, hshare, hmore]
          exact ⟨rfl, rfl⟩

/-- The blocks, from position `idx` on, hold the list `entries` where the slots are
as the writes left them. -/
def Laid (slots : ChunkId → Slot) (key : SubKey) (fileId : FileId) (entries : List ChunkRef) :
    Nat → List ChunkRef → Prop
  | _, [] => True
  | idx, block :: rest =>
      (∃ padding pt, encodeChunkListBlock padding ((entries.drop (idx * 254)).take 254) rest.head? =
          .ok pt ∧ slots block.id = Slot.sealed key
            (chunkAad (listFileId fileId) (idx % 2 ^ 32) block.generation) pt) ∧
      Laid slots key fileId entries (idx + 1) rest

theorem Laid.congr {slots slots' : ChunkId → Slot} {key : SubKey} {fileId idx : Nat}
    {blocks entries : List ChunkRef} (h : Laid slots key fileId entries idx blocks)
    (hslots : ∀ b ∈ blocks, slots' b.id = slots b.id) :
    Laid slots' key fileId entries idx blocks := by
  induction blocks generalizing idx with
  | nil => exact trivial
  | cons block rest ih =>
      obtain ⟨⟨padding, pt, hpt, hslot⟩, hrest⟩ := h
      refine ⟨⟨padding, pt, hpt, ?_⟩, ih hrest fun b hb => hslots b (List.mem_cons_of_mem block hb)⟩
      rw [hslots block List.mem_cons_self]
      exact hslot

/-- A chain that was laid out is read back. -/
theorem Laid.chained {slots : ChunkId → Slot} {key : SubKey} {fileId idx : Nat}
    {blocks entries : List ChunkRef} (h : Laid slots key fileId entries idx blocks)
    (hfits : ∀ r ∈ entries, r.Fits) (hlinks : ∀ b ∈ blocks, b.Fits ∧ b.generation ≠ 0)
    (hcover : entries.length ≤ (idx + blocks.length) * 254) :
    Chained slots key fileId idx blocks (entries.drop (idx * 254)) := by
  induction blocks generalizing idx with
  | nil => exact List.drop_eq_nil_of_le hcover
  | cons block rest ih =>
      obtain ⟨⟨padding, pt, hpt, hslot⟩, hrest⟩ := h
      have hshift : idx + (rest.length + 1) = idx + 1 + rest.length := by omega
      rw [List.length_cons, hshift] at hcover
      refine ⟨pt, (entries.drop (idx * 254)).take 254, entries.drop ((idx + 1) * 254), ?_, ?_, ?_,
        ih hrest (fun b hb => hlinks b (List.mem_cons_of_mem block hb)) hcover⟩
      · rw [hslot]
        exact if_pos ⟨rfl, rfl⟩
      · refine parseChunkListBlock_encode hpt ?_ ?_
        · intro r hr
          exact hfits r (List.mem_of_mem_drop (List.mem_of_mem_take hr))
        · intro r hr
          exact hlinks r (List.mem_cons_of_mem block (List.mem_of_mem_head? hr))
      · have hdrop : entries.drop ((idx + 1) * 254) = (entries.drop (idx * 254)).drop 254 := by
          rw [List.drop_drop, show idx * 254 + 254 = (idx + 1) * 254 by omega]
        rw [hdrop, List.take_append_drop]

end Luksbox
