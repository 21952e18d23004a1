import BEpsilon.File.Flush
import Mathlib.Data.Finset.Image

/-!
# BEpsilon.File.Client — one client and the blocks it holds

`Client` is a manager together with what its user knows: the blocks that were handed out and not
deleted, and the data last written through each id.  `Session g P Q` are the runs of one client in which
each `createBlock` starts in a state that satisfies `P` and each `deleteBlock` in one that satisfies `Q`; the
theorems differ in these alone.  The lemmas here say what a call leaves of the blocks it is not about.
-/

namespace BEpsilon.File

open SegmentManager

/-- The next segment keeps the file below `2 ^ 16` segments. -/
def SegmentManager.FewSegments (m : SegmentManager) (_pick : ℕ) : Prop :=
  m.freeSegments = ∅ → m.segments.length + 1 < segmentLimit

/-- A manager and what its user knows about it. -/
structure Client (B : BlockSize) where
  manager : SegmentManager
  /-- the blocks (segment, block) that are handed out -/
  blocks : Finset (ℕ × ℕ)
  /-- the data last written through an id since it was handed out -/
  data : UInt64 → Option (Block B)

/-- The id of a block. -/
def idOf (p : ℕ × ℕ) : UInt64 := packID p.1 p.2

/-- The ids of the blocks that are handed out. -/
def Client.live {B : BlockSize} (c : Client B) : Finset UInt64 := c.blocks.image idOf

/-- The runs of one client on a fresh manager; it deletes and writes live ids only. -/
inductive Session (B : BlockSize) (g : ℚ≥0) (P : SegmentManager → ℕ → Prop) (Q : SegmentManager → Prop) :
    Client B → Prop
  | fresh {m : SegmentManager} (hr : construct B g none = .ok m) :
      Session B g P Q ⟨m, ∅, fun _ => none⟩
  | createBlock {c : Client B} {m' : SegmentManager} {i b : ℕ} (pick : ℕ) (hc : Session B g P Q c)
      (hP : P c.manager pick) (hr : c.manager.allocate B pick = .ok ((i, b), m')) :
      Session B g P Q ⟨m', insert (i, b) c.blocks, c.data⟩
  | deleteBlock {c : Client B} {m' : SegmentManager} (id : UInt64) (hc : Session B g P Q c)
      (hQ : Q c.manager) (hid : id ∈ c.live) (hr : c.manager.deleteBlock B id = .ok m') :
      Session B g P Q ⟨m', c.blocks.filter fun p => idOf p ≠ id, Function.update c.data id none⟩
  | writeBlock {c : Client B} {m' : SegmentManager} (id : UInt64) (data : Block B)
      (hc : Session B g P Q c) (hid : id ∈ c.live) (hr : c.manager.writeBlock B id data = .ok m') :
      Session B g P Q ⟨m', c.blocks, Function.update c.data id (some data)⟩
  | flush {c : Client B} {m' : SegmentManager} (hc : Session B g P Q c)
      (hr : c.manager.flush = .ok m') : Session B g P Q ⟨m', c.blocks, c.data⟩

/-- Any state, as a condition on the calls of `deleteBlock`. -/
def Anywhere (_ : SegmentManager) : Prop := True

/-- Blocks of 48 bytes, the smallest that hold a header. -/
def smallBlocks : BlockSize := ⟨48, le_rfl, by decide⟩

variable {B : BlockSize} {g : ℚ≥0}

theorem Session.mono {P P' : SegmentManager → ℕ → Prop} {Q : SegmentManager → Prop} {c : Client B}
    (hP : ∀ m pick, P m pick → P' m pick) (h : Session B g P Q c) : Session B g P' Q c := by
  induction h with
  | fresh hr => exact .fresh hr
  | createBlock pick _ hc hr ih => exact .createBlock pick ih (hP _ _ hc) hr
  | deleteBlock id _ hQ hid hr ih => exact .deleteBlock id ih hQ hid hr
  | writeBlock id data _ hid hr ih => exact .writeBlock id data ih hid hr
  | flush _ hr ih => exact .flush ih hr

/-! ## What a call leaves of the other blocks -/

variable {m m' : SegmentManager} {segs segs' : List Segment} {chain chain' : ℕ → List ℕ}
  {f' : ByteFile} {hd' : ManagerHeader} {i b lo hi pick : ℕ} {s t s' : Segment} {l' : List ℕ} {id : UInt64}

/-- What the constructor makes in a new directory. -/
theorem construct_none (hr : construct B g none = .ok m) : B.bytes < ByteFile.limit ∧
    m = ⟨ByteFile.empty.ftruncate B.bytes, ⟨0, 0⟩, [], ∅, g⟩ := by
  unfold construct at hr
  dsimp only at hr
  split at hr
  next hB => exact ⟨hB, (Except.ok.inj hr).symm⟩
  next => exact nomatch hr

/-- A manager that was just constructed. -/
theorem Inv.fresh (hr : construct B g none = .ok m) : Inv B m [] fun _ => [] := by
  have hempty : ∀ i : ℕ, ¬∃ s : Segment, ([] : List Segment)[i]? = some s ∧ 0 < s.freeBlocks := by
    rintro i ⟨s, hs, -⟩
    exact nomatch hs
  obtain ⟨hB, rfl⟩ := construct_none hr
  exact ⟨Shape.fresh hB, rfl, fun i => iff_of_false (Finset.notMem_empty i) (hempty i)⟩

/-- Every segment stays where it is and as large as it is. -/
def Kept (segs segs' : List Segment) : Prop :=
  ∀ (i : ℕ) (s : Segment), segs[i]? = some s → ∃ s', segs'[i]? = some s' ∧
    s'.fileOffset = s.fileOffset ∧ s'.header.allocatedBlocks = s.header.allocatedBlocks

theorem Kept.refl (segs : List Segment) : Kept segs segs := fun _ s hs => ⟨s, hs, rfl, rfl⟩

theorem Kept.set (hs : segs[i]? = some s) (ho : t.fileOffset = s.fileOffset)
    (ha : t.header.allocatedBlocks = s.header.allocatedBlocks) : Kept segs (segs.set i t) := by
  intro j u hu
  by_cases hij : i = j
  · subst hij
    obtain rfl : s = u := Option.some.inj (hs.symm.trans hu)
    exact ⟨t, List.getElem?_set_self (List.getElem?_eq_some_iff.mp hs).1, ho, ha⟩
  · exact ⟨u, by rw [List.getElem?_set_ne hij]; exact hu, rfl, rfl⟩

theorem Kept.append (segs : List Segment) (t : Segment) : Kept segs (segs ++ [t]) :=
  fun _ s hs => ⟨s, by rw [List.getElem?_append_left (List.getElem?_eq_some_iff.mp hs).1]; exact hs,
    rfl, rfl⟩

theorem Allocation.kept (w : Allocation B m segs chain pick i b segs' chain' f' hd') :
    Kept segs segs' := by
  cases w with
  | reused hne hs w => exact .set hs w.fileOffset w.allocatedBlocks
  | grown he hlt w => exact .append _ _

/-- `createBlock` changes no byte of the file, if a new segment ends inside it. -/
theorem Allocation.changed (h : Inv B m segs chain) (hfit : m.freeSegments = ∅ → m.FitsFile B)
    (w : Allocation B m segs chain pick i b segs' chain' f' hd') :
    ByteFile.Changed 0 0 m.file f' := by
  have hsize := h.size
  cases w with
  | reused hne hs w => exact .refl 0 0 _
  | grown he hlt ho w =>
    have hoff := nextOffset_eq h.toShape h.length h.newest
    obtain rfl := Except.ok.inj (hoff.symm.trans ho)
    rw [resize_fits (hfit he _ ho)]
    exact .ftruncate (by omega) 0

/-- A block reads the same after a call that writes elsewhere. -/
theorem readBlock_kept (h : Inv B m segs chain) (h' : Inv B m' segs' chain') (k : Kept segs segs')
    (hc : ByteFile.Changed lo hi m.file m'.file) (hs : segs[getIndexFromID id]? = some s)
    (hb : getBlockFromID id < s.header.allocatedBlocks)
    (hd : s.start B (getBlockFromID id) + B.bytes ≤ lo ∨ hi ≤ s.start B (getBlockFromID id)) :
    m'.readBlock B id = m.readBlock B id := by
  obtain ⟨s', hs', ho, -⟩ := k _ s hs
  have hat : s'.blockAt B (getBlockFromID id) = s.blockAt B (getBlockFromID id) := by
    unfold Segment.blockAt
    rw [ho]
  have hsame := Segment.readBlock_frame (h.inside hs) hb hc hd
  rw [readBlock_eq h.toCounts hs, readBlock_eq h'.toCounts hs', ← hsame]
  unfold Segment.readBlock
  rw [hat]

/-- Two ids of existing blocks that differ are two blocks that share no byte. -/
theorem ids_disjoint (h : Inv B m segs chain) {id' : UInt64} (hne : id ≠ id')
    (hs : segs[getIndexFromID id]? = some s) (hb : getBlockFromID id < s.header.allocatedBlocks)
    (ht : segs[getIndexFromID id']? = some t) (hb' : getBlockFromID id' < t.header.allocatedBlocks) :
    s.start B (getBlockFromID id) + B.bytes ≤ t.start B (getBlockFromID id') ∨
      t.start B (getBlockFromID id') + B.bytes ≤ s.start B (getBlockFromID id) := by
  refine h.laid.blocks_disjoint hs ht hb hb' fun he => hne ?_
  obtain ⟨h₁, h₂⟩ := Prod.mk.inj he
  rw [← packID_of_id id, ← packID_of_id id', h₁, h₂]

end BEpsilon.File
