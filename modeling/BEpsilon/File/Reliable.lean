import BEpsilon.File.Allocator
import BEpsilon.File.CreateOnly

/-!
# BEpsilon.File.Reliable — what the user of the allocator relies on

`session_reliable` is the contract of the allocator below its limits, as long as every segment ends inside the
file.  Where a segment does not, its end wraps around in a `size_t`, and the `ftruncate` that should make room for
it cuts off the segments before it: `session_cut` is such a run, below the limits of the ids.  `session_ids` drops
the limits on the sizes: ids stay distinct exactly as long as each new block fits into the two fields of an id,
which `createBlock` does not check.  `session_ids_wrap` is a run of `createBlock` alone that gets past it.
-/

namespace BEpsilon.File

open SegmentManager

variable {B : BlockSize} {g : ℚ≥0} {c : Client B} {segs : List Segment} {chain : ℕ → List ℕ}

/-- A live block can be read. -/
theorem Exact.readBlock (h : Exact B c segs chain) {id : UInt64} (hid : id ∈ c.live) :
    ∃ d, c.manager.readBlock B id = .ok d := by
  obtain ⟨s, hs, -, hb, -⟩ := h.find hid
  have hin := h.shape.inside hs
  rw [readBlock_eq h.counts hs]
  unfold Segment.readBlock
  rw [hin.blockAt_eq hb]
  exact ⟨_, dif_pos (ByteFile.length_pread (hin.start_le hb))⟩

/-- Blocks of 128 KiB. -/
def wideBlocks : BlockSize := ⟨131072, by decide, by decide⟩

/-- A block of sevens. -/
def sevens : Block wideBlocks := ⟨List.replicate 131072 7, List.length_replicate⟩

/-- In a run whose new blocks are in range, and that deletes none behind the end of the file, ids lead back to their
blocks and no two live blocks share one; and the next block does so exactly if it is in range. -/
theorem session_ids (h : Session B g InRange (InFile B) c) :
    (∀ p ∈ c.blocks, getIndexFromID (idOf p) = p.1 ∧ getBlockFromID (idOf p) = p.2) ∧
      (∀ p ∈ c.blocks, ∀ q ∈ c.blocks, p ≠ q → idOf p ≠ idOf q) ∧
      ∀ pick p m', c.manager.allocate B pick = .ok (p, m') →
        (c.manager.InRange pick ↔ (getIndexFromID (idOf p) = p.1 ∧ getBlockFromID (idOf p) = p.2) ∧
          ∀ q ∈ c.blocks, idOf p ≠ idOf q) := by
  obtain ⟨segs, chain, hx⟩ := session_held h
  refine ⟨fun p hp => ⟨hx.index hp, hx.block hp⟩, fun p hp q hq hne he => hne (hx.idOf_injOn hp hq he),
    fun pick p m' hr => ⟨fun hin => ?_, fun hid => ?_⟩⟩
  · obtain ⟨segs', chain', hx', -, hnew⟩ := hx.toBooked.create hin hr c.data
    have hp := Finset.mem_insert_self p c.blocks
    refine ⟨⟨hx'.index hp, hx'.block hp⟩, fun q hq he => hnew ?_⟩
    show idOf p ∈ c.live
    rw [he]
    exact Finset.mem_image.mpr ⟨q, hq, rfl⟩
  · obtain ⟨segs', chain', -, w, -⟩ := allocate_cases hx.counts hr
    rw [w.inRange hx.counts, ← hid.1.1, ← hid.1.2]
    exact ⟨getIndexFromID_lt _, getBlockFromID_lt _⟩

/-- The first blocks of a run, in range. -/
theorem session_ids_first : ∃ c : Client smallBlocks, c.blocks = {(0, 0), (0, 1)} ∧
    ∀ p ∈ c.blocks, ∀ q ∈ c.blocks, p ≠ q → idOf p ≠ idOf q := by
  have h₀ : Session smallBlocks 1 InRange (InFile smallBlocks) _ := .fresh rfl
  have h₁ := h₀.createBlock 0 (by decide) rfl
  have h₂ := h₁.createBlock 0 (by decide) rfl
  exact ⟨_, by decide, (session_ids h₂).2.1⟩

/-- After 65536 segments of ten blocks, the next block has the id of the very first. -/
theorem session_ids_wrap : ∃ c : Client smallBlocks, Session smallBlocks 1 (fun _ _ => True) Anywhere c ∧
    ∃ p ∈ c.blocks, ∃ q ∈ c.blocks, p ≠ q ∧ idOf p = idOf q := by
  let R : SegmentManager → Finset (ℕ × ℕ) → Prop := fun m blocks =>
    Session smallBlocks 1 (fun _ _ => True) Anywhere ⟨m, blocks, fun _ => none⟩
  have hR : Continues smallBlocks (fun m => m.segments.length + 1 < 65538) R :=
    fun _ _ _ pick _ h _ hr => h.createBlock pick trivial hr
  obtain ⟨m, blocks, segs, chain, h, hlen, -⟩ :=
    exists_growing hR rfl (.fresh rfl) 65537 (by decide)
  exact ⟨_, h.run, (0, 0), h.firsts 0 (by omega), (65536, 0), h.firsts 65536 (by omega),
    by decide, by decide⟩

end BEpsilon.File
