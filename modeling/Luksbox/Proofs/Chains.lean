import Luksbox.Proofs.ListBlocks
import Luksbox.Proofs.Ownership

/-!
# Chunk-list chains: written, read back, and hostile

A spilled chunk list is cut into blocks of 254 references, each block naming the
next one. A chain is a list of slots of which each opens, under the key and the
position it was sealed with, to its share of the references and the reference of
the slot after it (`Reads`). The walk keeps two budgets, of blocks and of
references, which an honest chain meets exactly.

The walk over a chain nobody wrote is bounded by the block budget alone: every
round takes one block off it, whatever the links are.
-/

namespace Luksbox

open Lib

/-! ## Chains on disk -/

/-- The blocks, from position `idx` of the chain on, open to these references
and name each other in order. -/
def Reads (c : Container) (fileId : FileId) : Nat → List ChunkRef → List ChunkRef → Prop
  | _, [], entries => entries = []
  | idx, block :: rest, entries =>
      (∃ pt off, slotOffset c.header.dataOffset block.id = .ok off ∧
        off + chunkSlotSize ≤ c.fileLen ∧
        c.slots block.id (c.listFileKey fileId)
          (chunkAad (listFileId fileId) idx block.generation) = some pt ∧
        parseChunkListBlock pt = .ok (entries.take 254, rest.head?)) ∧
      Reads c fileId (idx + 1) rest (entries.drop 254)

/-- What a later write leaves of a chain: the slots are the same, and the file
is no shorter. -/
theorem Reads.frame {c c' : Container} {fileId idx : Nat} {blocks entries : List ChunkRef}
    (h : Reads c fileId idx blocks entries) (hheader : c'.header = c.header)
    (hmvk : c'.mvk = c.mvk) (hsalt : c'.headerSalt = c.headerSalt) (hlen : c.fileLen ≤ c'.fileLen)
    (hslots : ∀ b ∈ blocks, c'.slots b.id = c.slots b.id) : Reads c' fileId idx blocks entries := by
  induction blocks generalizing idx entries with
  | nil => exact h
  | cons block rest ih =>
      obtain ⟨⟨pt, off, hoff, hfit, hslot, hparse⟩, hrest⟩ := h
      have hkey : c'.listFileKey fileId = c.listFileKey fileId := by
        unfold Container.listFileKey Container.fileKey
        rw [hmvk, hsalt]
      refine ⟨⟨pt, off, ?_, hfit.trans hlen, ?_, hparse⟩, ?_⟩
      · rw [hheader]
        exact hoff
      · rw [hslots block List.mem_cons_self, hkey]
        exact hslot
      · exact ih hrest fun b hb => hslots b (List.mem_cons_of_mem block hb)

/-- What writing these slots changes of the data area. -/
structure Container.Extended (ids : List ChunkId) (c c' : Container) : Prop where
  header : c'.header = c.header
  mvk : c'.mvk = c.mvk
  headerSalt : c'.headerSalt = c.headerSalt
  fileLen : c.fileLen ≤ c'.fileLen
  slots : ∀ x, x ∉ ids → c'.slots x = c.slots x

theorem Container.Extended.refl (c : Container) : Container.Extended [] c c :=
  ⟨rfl, rfl, rfl, le_refl _, fun _ _ => rfl⟩

theorem Container.Extended.cons {id : ChunkId} {ids : List ChunkId} {c c' c'' : Container}
    (h : Container.Extended [id] c c') (h' : Container.Extended ids c' c'') :
    Container.Extended (id :: ids) c c'' where
  header := h'.header.trans h.header
  mvk := h'.mvk.trans h.mvk
  headerSalt := h'.headerSalt.trans h.headerSalt
  fileLen := h.fileLen.trans h'.fileLen
  slots := by
    intro x hx
    rw [List.mem_cons, not_or] at hx
    rw [h'.slots x hx.2, h.slots x (by simp [hx.1])]

theorem writeChunkListBlock_extends {c : Container} {fileId idx : Nat} {block : ChunkRef}
    {entries : List ChunkRef} {next : Option ChunkRef} :
    wp (Container.writeChunkListBlock fileId idx block entries next)
      (fun _ c' => Container.Extended [block.id] c c' ∧ ∃ pt off,
        encodeChunkListBlock c.env.padding entries next = .ok pt ∧
        slotOffset c.header.dataOffset block.id = .ok off ∧ off + chunkSlotSize ≤ c'.fileLen ∧
        c'.slots block.id = Slot.sealed (c.listFileKey fileId)
          (chunkAad (listFileId fileId) idx block.generation) pt)
      (fun _ _ => True) c := by
  unfold Container.writeChunkListBlock
  simp only [wp_bind, wp_get]
  cases hpt : encodeChunkListBlock c.env.padding entries next with
  | error e => trivial
  | ok pt =>
      rw [wp_fromExcept_ok]
      refine Container.writeChunk_spec (fun io off hoff => ?_) (fun _ _ => trivial)
        (fun _ _ _ => trivial) fun _ _ _ _ _ _ => trivial
      refine ⟨⟨rfl, rfl, rfl, le_max_left _ _, fun x hx => ?_⟩, pt, off, rfl, hoff,
        le_max_right _ _, Function.update_self _ _ _⟩
      exact Function.update_of_ne (fun he => hx (by simp [he])) _ _

/-- Writing the blocks from position `idx` on. The bound on an id is known only
once its own block is written, which is after the block that names it. -/
theorem writeListBlocks_reads {fileId : FileId} {entries : List ChunkRef}
    (hfits : ∀ r ∈ entries, r.Fits) {blocks : List ChunkRef} {idx : Nat} {s : Vfs}
    (hnodup : (blocks.map ChunkRef.id).Nodup) (hlinks : ∀ b ∈ blocks, b.Links)
    (hidx : idx + blocks.length ≤ 2 ^ 32) (hcover : entries.length ≤ (idx + blocks.length) * 254) :
    wp (Vfs.writeListBlocks fileId entries idx blocks)
      (fun _ s' => Reads s'.container fileId idx blocks (entries.drop (idx * 254)) ∧
        s.container.Extended (blocks.map ChunkRef.id) s'.container ∧
        ∀ b ∈ blocks, b.id ≤ u64Max)
      (fun _ _ => True) s := by
  induction blocks generalizing idx s with
  | nil =>
      refine wp_pure.mpr ⟨?_, Container.Extended.refl _, nofun⟩
      show entries.drop (idx * 254) = []
      exact List.drop_eq_nil_of_le hcover
  | cons block rest ih =>
      rw [List.map_cons, List.nodup_cons] at hnodup
      have hshift : idx + (rest.length + 1) = idx + 1 + rest.length := by omega
      rw [List.length_cons, hshift] at hidx hcover
      unfold Vfs.writeListBlocks
      simp only [chunkListEntriesPerBlock]
      rw [wp_bind, Vfs.wp_fromExcept]
      refine ⟨fun packed hpacked => ?_, fun _ _ => trivial⟩
      have hshare : packed = (entries.drop (idx * 254)).take 254 := by
        rw [(sliceList_eq_ok hpacked).1, List.take_eq_take_iff, List.length_drop]
        omega
      rw [wp_bind, Vfs.wp_onContainer]
      refine wp_mono writeChunkListBlock_extends ?_ fun _ _ _ => trivial
      rintro - c₁ ⟨hext, pt, off, hpt, hoff, hlen, hslot⟩
      refine wp_mono (ih hnodup.2 (fun b hb => hlinks b (List.mem_cons_of_mem block hb))
        hidx hcover) ?_ fun _ _ _ => trivial
      rintro - s₂ ⟨hreads, hext₂, hids⟩
      refine ⟨⟨⟨pt, off, ?_, hlen.trans hext₂.fileLen, ?_, ?_⟩, ?_⟩, hext.cons hext₂, ?_⟩
      · rw [hext₂.header, hext.header]
        exact hoff
      · have hkey : s₂.container.listFileKey fileId = s.container.listFileKey fileId := by
          unfold Container.listFileKey Container.fileKey
          rw [hext₂.mvk, hext.mvk, hext₂.headerSalt, hext.headerSalt]
        rw [hext₂.slots _ hnodup.1, hslot, hkey, Nat.mod_eq_of_lt (by omega)]
        exact if_pos ⟨rfl, rfl⟩
      · rw [← hshare]
        refine parseChunkListBlock_encode hpt ?_ ?_
        · intro r hr
          rw [hshare] at hr
          exact hfits r (List.mem_of_mem_drop (List.mem_of_mem_take hr))
        · intro r hr
          have hmem : r ∈ rest := List.mem_of_mem_head? hr
          have hlink := hlinks r (List.mem_cons_of_mem block hmem)
          exact ⟨⟨hids r hmem, hlink.2⟩, hlink.1⟩
      · rw [List.drop_drop, show idx * 254 + 254 = (idx + 1) * 254 by omega]
        exact hreads
      · intro b hb
        rcases List.mem_cons.mp hb with rfl | hb
        · exact slotOffset_id_le hoff
        · exact hids b hb

/-! ## Fresh blocks -/

/-- What the allocators need to hand out new slots and generations: no slot is
free twice, every free slot lies below the next new one, and generations start
at 1. -/
structure FreshSlots (t : DirectoryTree) : Prop where
  nodup : t.freeChunks.Nodup
  below : ∀ id ∈ t.freeChunks, id < t.nextChunkId
  gen : 0 < t.nextChunkGen

theorem FreshSlots.take {t t' : DirectoryTree} {id : ChunkId} (h : FreshSlots t)
    (ht : t.allocChunkId = some (id, t')) :
    FreshSlots t' ∧ (id ∈ t.freeChunks ∨ t.nextChunkId ≤ id) ∧
      ∀ x, x ∈ t'.freeChunks ∨ t'.nextChunkId ≤ x →
        x ≠ id ∧ (x ∈ t.freeChunks ∨ t.nextChunkId ≤ x) := by
  rcases allocChunkId_cases ht with ⟨hfree, ht⟩ | ⟨hfree, hid, -, ht⟩
  · have hnodup := h.nodup
    rw [hfree, List.nodup_append] at hnodup
    have hmem : id ∈ t.freeChunks := by simp [hfree]
    have hnext : t'.nextChunkId = t.nextChunkId := by rw [ht]
    have hgen : t'.nextChunkGen = t.nextChunkGen := by rw [ht]
    have hsub : ∀ x ∈ t'.freeChunks, x ∈ t.freeChunks := by
      intro x hx
      rw [hfree]
      exact List.mem_append_left _ hx
    refine ⟨⟨hnodup.1, ?_, ?_⟩, Or.inl hmem, ?_⟩
    · intro x hx
      rw [hnext]
      exact h.below x (hsub x hx)
    · rw [hgen]
      exact h.gen
    · rintro x (hx | hx)
      · exact ⟨hnodup.2.2 x hx id List.mem_cons_self, Or.inl (hsub x hx)⟩
      · rw [hnext] at hx
        exact ⟨Nat.ne_of_gt ((h.below id hmem).trans_le hx), Or.inr hx⟩
  · rw [ht]
    refine ⟨⟨h.nodup, fun x hx => ?_, h.gen⟩, Or.inr (le_of_eq hid.symm), ?_⟩
    · exact Nat.lt_succ_of_lt (h.below x hx)
    · rintro x (hx | hx)
      · have hx : x ∈ t.freeChunks := hx
        rw [hfree] at hx
        cases hx
      · have hx : t.nextChunkId < x := hx
        exact ⟨fun he => Nat.ne_of_gt hx (he.trans hid), Or.inr hx.le⟩

theorem allocBlockRefs_fresh {n : Nat} {refs : List ChunkRef} {s : Vfs}
    (h : FreshSlots s.tree) :
    wp (Vfs.allocBlockRefs n refs)
      (fun out s' => s'.container = s.container ∧ ∃ new, out = refs ++ new ∧ new.length = n ∧
        (new.map ChunkRef.id).Nodup ∧ (∀ r ∈ new, r.Links) ∧
        ∀ r ∈ new, r.id ∈ s.tree.freeChunks ∨ s.tree.nextChunkId ≤ r.id)
      (fun _ _ => True) s := by
  induction n generalizing refs s with
  | zero => exact ⟨rfl, [], (List.append_nil refs).symm, rfl, List.nodup_nil, nofun, nofun⟩
  | succ n ih =>
      unfold Vfs.allocBlockRefs
      rw [wp_bind]
      refine Vfs.wp_alloc.mpr ⟨fun id t ht => ?_, fun _ => trivial⟩
      rw [wp_bind]
      refine Vfs.wp_alloc.mpr ⟨fun g t' ht' => ?_, fun _ => trivial⟩
      obtain ⟨hfresh, hid, hlater⟩ := h.take ht
      have ht' : t.allocChunkGen = some (g, t') := ht'
      unfold DirectoryTree.allocChunkGen at ht'
      split at ht'
      · cases ht'
      next hmax =>
      injection ht' with ht'
      injection ht' with hg ht'
      have hfresh' : FreshSlots t' := by
        rw [← ht']
        exact ⟨hfresh.nodup, hfresh.below, Nat.succ_pos _⟩
      refine wp_mono (ih (s := { s with tree := t' }) hfresh') ?_ fun _ _ _ => trivial
      rintro out s₂ ⟨hcont, new, hout, hlen, hnodup, hlinks, hnew⟩
      have hpast : ∀ r ∈ new, r.id ≠ id ∧ (r.id ∈ s.tree.freeChunks ∨ s.tree.nextChunkId ≤ r.id) := by
        intro r hr
        refine hlater r.id ?_
        have := hnew r hr
        rw [← ht'] at this
        exact this
      refine ⟨hcont, ⟨id, g⟩ :: new, ?_, by rw [List.length_cons, hlen], ?_, ?_, ?_⟩
      · rw [hout, List.append_assoc]
        rfl
      · rw [List.map_cons, List.nodup_cons]
        refine ⟨fun hmem => ?_, hnodup⟩
        obtain ⟨r, hr, hrid⟩ := List.mem_map.mp hmem
        exact (hpast r hr).1 hrid
      · intro r hr
        rcases List.mem_cons.mp hr with rfl | hr
        · have := hfresh.gen
          exact ⟨by simp only; omega, by simp only; omega⟩
        · exact hlinks r hr
      · intro r hr
        rcases List.mem_cons.mp hr with rfl | hr
        · exact hid
        · exact (hpast r hr).2

/-- The chain a spill writes. -/
theorem writeExternalChainFor_reads {fileId : FileId} {entries : List ChunkRef} {s : Vfs}
    (hne : entries ≠ []) (hfits : ∀ r ∈ entries, r.Fits) (hlen : entries.length ≤ 2 ^ 32)
    (hfresh : FreshSlots s.tree) :
    wp (Vfs.writeExternalChainFor fileId entries)
      (fun r s' => r.2.1 = entries.length ∧ r.2.2.head? = some r.1 ∧
        r.2.2.length = (entries.length + 253) / 254 ∧
        Reads s'.container fileId 0 r.2.2 entries)
      (fun _ _ => True) s := by
  have hpos : 0 < entries.length := List.length_pos_iff.mpr hne
  unfold Vfs.writeExternalChainFor
  simp only [chunkListEntriesPerBlock]
  rw [wp_bind]
  refine wp_mono (allocBlockRefs_fresh hfresh) ?_ fun _ _ _ => trivial
  rintro blocks s₁ ⟨-, new, hblocks, hcount, hnodup, hlinks, -⟩
  rw [List.nil_append] at hblocks
  subst hblocks
  rw [wp_bind]
  refine wp_mono (writeListBlocks_reads hfits hnodup hlinks ?_ ?_) ?_ fun _ _ _ => trivial
  · rw [hcount]
    omega
  · rw [hcount]
    omega
  rintro - s₂ ⟨hreads, -, -⟩
  rw [wp_bind, Vfs.wp_fromExcept]
  refine ⟨fun head hhead => ?_, fun _ _ => trivial⟩
  rw [wp_pure]
  refine ⟨rfl, ?_, ?_, ?_⟩
  · rw [List.head?_eq_getElem?]
    exact index_eq_ok hhead
  · exact hcount
  · simpa using hreads

/-! ## The walk over a chain that was written -/

theorem readChunk_quiet {c : Container} {key : SubKey} {fileId idx off : Nat} {chunk : ChunkRef}
    {pt : Chunk} (hio : c.env.io = []) (hoff : slotOffset c.header.dataOffset chunk.id = .ok off)
    (hlen : off + chunkSlotSize ≤ c.fileLen)
    (hslot : c.slots chunk.id key (chunkAad fileId idx chunk.generation) = some pt) :
    Container.readChunk key fileId idx chunk c = .ok pt c := by
  have hfault : Container.nextFault c = .ok .ok c := by
    unfold Container.nextFault
    rw [hio]
  have hcall : Container.ioCall c = .ok () c := bind_ok hfault
  have hread : Container.readAt off chunk.id c = .ok (c.slots chunk.id) c := by
    unfold Container.readAt
    rw [bind_ok hcall, bind_ok (show (get : ContainerM Container) c = .ok c c from rfl),
      if_neg (Nat.not_lt.mpr hlen)]
    rfl
  unfold Container.readChunk
  rw [bind_ok (show (get : ContainerM Container) c = .ok c c from rfl), hoff,
    bind_ok (show (fromExcept (.ok off) : ContainerM Nat) c = .ok off c from rfl), bind_ok hread,
    hslot]
  rfl

theorem walkChunkListLoop_reads {c : Container} (hio : c.env.io = []) {fileId maxEntries : Nat}
    {blocks es acc listBlocks : List ChunkRef} {budget idx : Nat}
    (h : Reads c fileId idx blocks es) (hbudget : blocks.length ≤ budget)
    (hmax : acc.length + es.length ≤ maxEntries) (hidx : idx + blocks.length ≤ u32Max) :
    Container.walkChunkListLoop fileId maxEntries budget idx blocks.head? acc listBlocks c =
      .ok (acc ++ es, listBlocks ++ blocks) c := by
  induction blocks generalizing es acc listBlocks budget idx with
  | nil =>
      have hes : es = [] := h
      rw [hes, List.append_nil, List.append_nil, List.head?_nil]
      unfold Container.walkChunkListLoop
      rfl
  | cons block rest ih =>
      obtain ⟨⟨pt, off, hoff, hlen, hslot, hparse⟩, hrest⟩ := h
      rw [List.length_cons] at hbudget hidx
      obtain ⟨budget, rfl⟩ : ∃ n, budget = n + 1 := ⟨budget - 1, by omega⟩
      have hsplit : (es.take 254).length + (es.drop 254).length = es.length := by
        rw [← List.length_append, List.take_append_drop]
      rw [List.head?_cons]
      unfold Container.walkChunkListLoop
      rw [bind_ok (show (get : ContainerM Container) c = .ok c c from rfl),
        bind_ok (readChunk_quiet hio hoff hlen hslot), hparse,
        bind_ok (show (fromExcept (.ok (es.take 254, rest.head?)) :
          ContainerM (List ChunkRef × Option ChunkRef)) c = .ok (es.take 254, rest.head?) c from rfl)]
      simp only
      rw [if_neg (by omega), if_neg (by omega), ih hrest (by omega)
        (by rw [List.length_append]; omega) (by omega), List.append_assoc, List.take_append_drop,
        List.append_assoc]
      rfl

/-! ## The walk over any chain -/

theorem nextFault_once {c : Container} {Q : Fault → Container → Prop}
    {E : Failure → Container → Prop} (h : ∀ fault, Q fault (c.withIo (c.env.io.drop 1))) :
    wp Container.nextFault Q E c := by
  unfold wp Container.nextFault
  cases hio : c.env.io with
  | nil =>
      have heq : c.withIo (c.env.io.drop 1) = c := by
        rw [hio, List.drop_nil, ← hio]
        rfl
      have := h .ok
      rw [heq] at this
      exact this
  | cons fault rest =>
      have := h fault
      rw [hio, List.drop_succ_cons, List.drop_zero] at this
      exact this

/-- One read is one I/O call, or none. -/
theorem readChunk_once {c : Container} {key : SubKey} {fileId idx : Nat} {chunk : ChunkRef} :
    wp (Container.readChunk key fileId idx chunk) (fun _ c' => c' = c.withIo (c.env.io.drop 1))
      (fun _ c' => ∃ k ≤ 1, c' = c.withIo (c.env.io.drop k)) c := by
  have hpast : ∃ k ≤ 1, c.withIo (c.env.io.drop 1) = c.withIo (c.env.io.drop k) :=
    ⟨1, le_refl 1, rfl⟩
  unfold Container.readChunk Container.readAt Container.ioCall
  simp only [wp_bind, wp_get]
  cases hoff : slotOffset c.header.dataOffset chunk.id with
  | error e => exact ⟨0, Nat.zero_le 1, rfl⟩
  | ok off =>
      simp only [wp_fromExcept_ok, wp_bind]
      refine nextFault_once fun fault => ?_
      cases fault with
      | before => exact hpast
      | torn left written => exact hpast
      | after => exact hpast
      | ok =>
          simp only [wp_pure]
          rw [wp_bind, wp_get, wp_ite, wp_throw, wp_pure]
          refine ⟨fun _ => hpast, fun _ => ?_⟩
          split
          · rfl
          · exact hpast

/-- Each round takes one block off the budget. -/
theorem walkChunkListLoop_bounded {fileId maxEntries budget idx : Nat} {current : Option ChunkRef}
    {acc listBlocks : List ChunkRef} {c : Container} :
    wp (Container.walkChunkListLoop fileId maxEntries budget idx current acc listBlocks)
      (fun r c' => ∃ k ≤ budget, c' = c.withIo (c.env.io.drop k) ∧
        r.2.length = listBlocks.length + k)
      (fun _ c' => ∃ k ≤ budget, c' = c.withIo (c.env.io.drop k)) c := by
  induction budget generalizing idx current acc listBlocks c with
  | zero =>
      cases current with
      | none => exact ⟨0, le_refl 0, rfl, rfl⟩
      | some cref => exact ⟨0, le_refl 0, rfl⟩
  | succ budget ih =>
      cases current with
      | none =>
          unfold Container.walkChunkListLoop
          exact ⟨0, Nat.zero_le _, rfl, rfl⟩
      | some cref =>
          unfold Container.walkChunkListLoop
          rw [wp_bind, wp_get, wp_bind]
          refine wp_mono readChunk_once ?_ ?_
          · intro pt c₁ hc₁
            have hone : ∃ k ≤ budget + 1, c₁ = c.withIo (c.env.io.drop k) :=
              ⟨1, by omega, hc₁⟩
            rw [wp_bind]
            cases hparse : parseChunkListBlock pt with
            | error e => exact hone
            | ok r =>
                obtain ⟨blockEntries, next⟩ := r
                rw [wp_fromExcept_ok]
                simp only [wp_ite, wp_throw]
                refine ⟨fun _ => hone, fun _ => ⟨fun _ => hone, fun _ => ?_⟩⟩
                have hdrop : ∀ k, c₁.withIo (c₁.env.io.drop k) = c.withIo (c.env.io.drop (k + 1)) := by
                  intro k
                  rw [hc₁, Nat.add_comm k 1, ← List.drop_drop]
                  rfl
                refine wp_mono ih ?_ ?_
                · rintro r c₂ ⟨k, hk, hc₂, hlen⟩
                  rw [hdrop] at hc₂
                  rw [List.length_append, List.length_singleton] at hlen
                  exact ⟨k + 1, by omega, hc₂, by omega⟩
                · rintro e c₂ ⟨k, hk, hc₂⟩
                  rw [hdrop] at hc₂
                  exact ⟨k + 1, by omega, hc₂⟩
          · rintro e c₁ ⟨k, hk, hc₁⟩
            exact ⟨k, by omega, hc₁⟩

theorem walkChunkListChain_bounded {fileId : FileId} {head : ChunkRef} {expectedCount : Nat}
    {c : Container} :
    wp (Container.walkChunkListChain fileId head expectedCount)
      (fun r c' => r.1.length = expectedCount ∧ ∃ k ≤ (expectedCount + 253) / 254 + 2,
        c' = c.withIo (c.env.io.drop k) ∧ r.2.length = k)
      (fun _ c' => ∃ k ≤ (expectedCount + 253) / 254 + 2, c' = c.withIo (c.env.io.drop k)) c := by
  unfold Container.walkChunkListChain
  simp only [chunkListEntriesPerBlock, wp_ite, wp_throw]
  refine ⟨fun _ => ⟨0, Nat.zero_le _, rfl⟩, fun _ => ?_⟩
  rw [wp_bind]
  refine wp_mono walkChunkListLoop_bounded ?_ fun _ _ h => h
  rintro ⟨entries, listBlocks⟩ c₁ ⟨k, hk, hc₁, hlen⟩
  simp only [wp_ite, wp_throw, wp_pure]
  refine ⟨fun _ => ⟨k, hk, hc₁⟩, fun hcount => ⟨not_not.mp hcount, k, hk, hc₁, ?_⟩⟩
  rw [hlen, List.length_nil, Nat.zero_add]

/-! ## Both together -/

/-- What the spill wrote, the walk reads. -/
theorem writeExternalChainFor_walks {s s' : Vfs} {fileId : FileId} {entries blocks : List ChunkRef}
    {head : ChunkRef} {count : Nat} (hne : entries ≠ []) (hlen : entries.length ≤ 2 ^ 32)
    (hfits : ∀ r ∈ entries, r.Fits) (hfresh : FreshSlots s.tree)
    (hwrite : Vfs.writeExternalChainFor fileId entries s = .ok (head, count, blocks) s') :
    Container.walkChunkListChain fileId head count (s'.container.withIo []) =
      .ok (entries, blocks) (s'.container.withIo []) := by
  have hchain := Vfs.of_wp_ok (writeExternalChainFor_reads hne hfits hlen hfresh) hwrite
  obtain ⟨hcount, hhead, hblocks, hreads⟩ := hchain
  simp only at hcount hhead hblocks hreads
  subst hcount
  have hreads' : Reads (s'.container.withIo []) fileId 0 blocks entries :=
    hreads.frame rfl rfl rfl (le_refl _) fun _ _ => rfl
  have hu32 : 0 + blocks.length ≤ u32Max := by
    have : u32Max = 2 ^ 32 - 1 := rfl
    omega
  have hwalk : Container.walkChunkListLoop fileId entries.length
      ((entries.length + 254 - 1) / 254 + 2) 0 blocks.head? [] [] (s'.container.withIo []) =
        .ok ([] ++ entries, [] ++ blocks) (s'.container.withIo []) :=
    walkChunkListLoop_reads rfl hreads' (by omega) (by simp) hu32
  rw [hhead] at hwalk
  unfold Container.walkChunkListChain
  simp only [chunkListEntriesPerBlock]
  have hmax : ¬ entries.length > Container.maxLegitimateChunkCount := by
    have : Container.maxLegitimateChunkCount = 2 ^ 32 := by decide
    omega
  rw [if_neg hmax, bind_ok hwalk]
  simp only [List.nil_append, ne_eq, not_true_eq_false, if_false]
  rfl

/-- The chain of any chunk list is read back as that list and the blocks it is
in, wherever the allocators stand; and over any data area at all the walk makes
at most `ceil(expected_count / 254) + 2` reads and returns `expected_count`
references or fails. -/
theorem chunk_list_chains_exact :
    (∀ (s s' : Vfs) (fileId : FileId) (entries : List ChunkRef) (head : ChunkRef) (count : Nat)
      (blocks : List ChunkRef), entries ≠ [] → entries.length ≤ 2 ^ 32 →
      (∀ r ∈ entries, r.id ≤ u64Max ∧ r.generation ≤ u64Max ∧ r.generation ≠ 0) →
      FreshSlots s.tree →
      Vfs.writeExternalChainFor fileId entries s = .ok (head, count, blocks) s' →
      Container.walkChunkListChain fileId head count (s'.container.withIo []) =
        .ok (entries, blocks) (s'.container.withIo [])) ∧
    ∀ (c : Container) (fileId : FileId) (head : ChunkRef) (expectedCount : Nat),
      wp (Container.walkChunkListChain fileId head expectedCount)
        (fun r c' => r.1.length = expectedCount ∧ ∃ k ≤ (expectedCount + 253) / 254 + 2,
          c' = c.withIo (c.env.io.drop k) ∧ r.2.length = k)
        (fun _ c' => ∃ k ≤ (expectedCount + 253) / 254 + 2, c' = c.withIo (c.env.io.drop k)) c := by
  refine ⟨?_, fun c fileId head expectedCount => walkChunkListChain_bounded⟩
  intro s s' fileId entries head count blocks hne hlen hrefs hfresh hwrite
  refine writeExternalChainFor_walks hne hlen ?_ hfresh hwrite
  exact fun r hr => ⟨(hrefs r hr).1, (hrefs r hr).2.1⟩

/-- A list of two blocks, 254 refs in one and the last one in the other. -/
theorem chunk_list_chains_exact_plain :
    ∃ blocks s', Vfs.writeExternalChainFor 2 (List.replicate 255 ⟨5, 1⟩) Vfs.plain =
        .ok (⟨0, 1⟩, 255, blocks) s' ∧ blocks.length = 2 ∧
      Container.walkChunkListChain 2 ⟨0, 1⟩ 255 (s'.container.withIo []) =
        .ok (List.replicate 255 ⟨5, 1⟩, blocks) (s'.container.withIo []) := by
  have hok : (match Vfs.writeExternalChainFor 2 (List.replicate 255 ⟨5, 1⟩) Vfs.plain with
      | .ok r _ => some (r.1, r.2.1, r.2.2.length)
      | .error _ _ => none) = some (⟨0, 1⟩, 255, 2) := by decide +kernel
  generalize hwrite : Vfs.writeExternalChainFor 2 (List.replicate 255 ⟨5, 1⟩) Vfs.plain = r at hok
  cases r with
  | error e s' => cases hok
  | ok r s' =>
      obtain ⟨head, count, blocks⟩ := r
      injection hok with hok
      injection hok with hhead hok
      injection hok with hcount hblocks
      subst hhead hcount
      refine ⟨blocks, s', rfl, hblocks, ?_⟩
      refine chunk_list_chains_exact.1 _ _ _ _ _ _ _ (by decide)
        (by rw [List.length_replicate]; decide) ?_ ?_ hwrite
      · intro r hr
        rw [List.eq_of_mem_replicate hr]
        decide
      · exact ⟨List.nodup_nil, nofun, by decide⟩

/-- At every point inside a call the allocators are fresh. -/
theorem Path.freshSlots {P : Permit} {f : FileId} {c c' : Cfg} (hl : Ledger c)
    (hgen : 0 < c.vfs.tree.nextChunkGen) (h : Path P f c c') : FreshSlots c'.vfs.tree := by
  have hl' := hl.path h
  have hheld : ∀ x, c'.vfs.tree.freeChunks.count x ≤ c'.held x := by
    intro x
    unfold Cfg.held
    omega
  refine ⟨?_, ?_, hgen.trans_le h.frame.nextChunkGen⟩
  · rw [List.nodup_iff_count_le_one]
    exact fun x => (hheld x).trans (hl'.once x)
  · intro x hx
    exact hl'.bound x ((List.count_pos_iff.mpr hx).trans_le (hheld x))

/-! ## How many chunks a file may have -/

theorem le_nextPowerOfTwo (n : Nat) : n ≤ nextPowerOfTwo n := by
  unfold nextPowerOfTwo
  split
  · next h => exact h
  · next h =>
      have hlt : n - 1 < 2 ^ (Nat.log2 (n - 1) + 1) := Nat.lt_log2_self
      omega

theorem nextPowerOfTwo_le {n k : Nat} (h : n ≤ 2 ^ k) : nextPowerOfTwo n ≤ 2 ^ k := by
  unfold nextPowerOfTwo
  split
  · exact Nat.one_le_two_pow
  · next hn =>
      have hlog : Nat.log2 (n - 1) < k := (Nat.log2_lt (by omega)).mpr (by omega)
      exact Nat.pow_le_pow_right (by decide) hlog

theorem le_paddedChunkCount {needed count : Nat} {paddingOn : Bool}
    (h : paddedChunkCount needed paddingOn = .ok count) : needed ≤ count := by
  unfold paddedChunkCount at h
  split at h
  · injection h with h
    exact h.le
  · split at h
    · cases h
    · injection h with h
      rw [← h]
      exact le_nextPowerOfTwo needed

theorem paddedChunkCount_le {needed : Nat} {paddingOn : Bool} (h : needed ≤ 2 ^ 32) :
    ∃ count, paddedChunkCount needed paddingOn = .ok count ∧ count ≤ 2 ^ 32 := by
  have hpow := nextPowerOfTwo_le h
  unfold paddedChunkCount
  split
  · exact ⟨needed, rfl, h⟩
  · rw [if_neg (by omega)]
    exact ⟨_, rfl, hpow⟩

/-- A chunk list of this length that is spilled comes back at the next open. -/
def WalksBack (count : Nat) : Prop :=
  ∀ (s s' : Vfs) (fileId : FileId) (entries : List ChunkRef) (head : ChunkRef) (n : Nat)
    (blocks : List ChunkRef), entries.length = count → entries ≠ [] → (∀ r ∈ entries, r.Fits) →
    FreshSlots s.tree → Vfs.writeExternalChainFor fileId entries s = .ok (head, n, blocks) s' →
    Container.walkChunkListChain fileId head n (s'.container.withIo []) =
      .ok (entries, blocks) (s'.container.withIo [])

/-- A file of this logical size has a chunk count whose indices the `u32` of the
chunk AAD tells apart, and which the reader of its chunk list accepts. -/
def Addressable (size : Nat) (hideSize padFilesPow2 : Bool) : Prop :=
  ∃ count, paddedChunkCount (requiredChunks size hideSize) padFilesPow2 = .ok count ∧
    count ≤ 2 ^ 32 ∧
    (∀ fileId generation i j, i < count → j < count →
      chunkAad fileId (i % 2 ^ 32) generation = chunkAad fileId (j % 2 ^ 32) generation → i = j) ∧
    WalksBack count

theorem requiredChunks_le {size : Nat} {hideSize : Bool} (hsize : size ≤ maxFileSize)
    (h : hideSize = true → size + sizeHeaderLen ≤ maxFileSize) :
    requiredChunks size hideSize ≤ 2 ^ 32 := by
  unfold maxFileSize at hsize h
  unfold requiredChunks
  simp only [chunkPlaintextSize]
  split
  · omega
  · cases hideSize with
    | false =>
        simp only [Bool.false_eq_true, if_false]
        omega
    | true =>
        have := h rfl
        simp only [if_true]
        omega

/-- The size header pushes the last bytes of the largest files into one chunk
more than there are indices. -/
theorem requiredChunks_hidden {size : Nat} (hsize : size ≤ maxFileSize)
    (h : ¬ size + sizeHeaderLen ≤ maxFileSize) : 2 ^ 32 < requiredChunks size true := by
  unfold maxFileSize sizeHeaderLen at h
  unfold maxFileSize at hsize
  unfold requiredChunks
  simp only [chunkPlaintextSize, sizeHeaderLen, u64Max, if_true]
  rw [if_neg (by omega)]
  omega

/-- Up to the size limit the chunks of a file are addressable exactly when the
size header, if there is one, still fits below the limit. -/
theorem addressable_iff {size : Nat} (hsize : size ≤ maxFileSize) (hideSize padFilesPow2 : Bool) :
    Addressable size hideSize padFilesPow2 ↔
      (hideSize = true → size + sizeHeaderLen ≤ maxFileSize) := by
  constructor
  · rintro ⟨count, hcount, hle, -⟩ rfl
    by_contra h
    have hneeded := le_paddedChunkCount hcount
    have := requiredChunks_hidden hsize h
    omega
  · intro h
    obtain ⟨count, hcount, hle⟩ := paddedChunkCount_le (requiredChunks_le hsize h)
    refine ⟨count, hcount, hle, ?_, ?_⟩
    · intro fileId generation i j hi hj haad
      injection haad with _ hidx
      rw [Nat.mod_eq_of_lt (hi.trans_le hle), Nat.mod_eq_of_lt (hj.trans_le hle)] at hidx
      exact hidx
    · intro s s' fileId entries head n blocks hlen hne hfits hfresh hwrite
      exact writeExternalChainFor_walks hne (hlen ▸ hle) hfits hfresh hwrite

theorem addressable_megabyte : Addressable (2 ^ 20) true true :=
  (addressable_iff (by decide) true true).mpr fun _ => by decide

/-- A file of `MAX_FILE_SIZE` bytes in a vault that hides sizes: one chunk too
many for the `u32` (index 2^32 gets the AAD of index 0) and for the reader, and
with padding twice as many. -/
theorem largest_hidden_file_not_addressable :
    ¬ Addressable maxFileSize true false ∧ ¬ Addressable maxFileSize true true ∧
      paddedChunkCount (requiredChunks maxFileSize true) false = .ok (2 ^ 32 + 1) ∧
      paddedChunkCount (requiredChunks maxFileSize true) true = .ok (2 ^ 33) ∧
      chunkAad 2 (2 ^ 32 % 2 ^ 32) 1 = chunkAad 2 (0 % 2 ^ 32) 1 ∧
      ∀ fileId head c, Container.walkChunkListChain fileId head (2 ^ 32 + 1) c =
        .error (.err .crypto) c := by
  have hcount : paddedChunkCount (requiredChunks maxFileSize true) false = .ok (2 ^ 32 + 1) := by
    decide
  have hpadded : paddedChunkCount (requiredChunks maxFileSize true) true = .ok (2 ^ 33) := by
    decide +kernel
  refine ⟨?_, ?_, hcount, hpadded, rfl, ?_⟩
  · rintro ⟨count, h, hle, -⟩
    rw [hcount] at h
    injection h with h
    omega
  · rintro ⟨count, h, hle, -⟩
    rw [hpadded] at h
    injection h with h
    omega
  · intro fileId head c
    unfold Container.walkChunkListChain
    rw [if_pos (by decide)]
    rfl

end Luksbox
