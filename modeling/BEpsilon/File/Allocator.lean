import BEpsilon.File.Client

/-!
# BEpsilon.File.Allocator — the allocator keeps its blocks apart

`Booked` is the invariant of the runs whose ids are in range: the blocks that are handed out are exactly
those below `occupiedBlocks` and outside the chains.  From it follow freshness of new ids and the counts.  `Exact`
adds the bytes: the segments lie in the file, and a block holds what was last written to it.  `Held` is what is
left when a segment does not end inside the file: no block is deleted from then on.
-/

namespace BEpsilon.File

open SegmentManager

variable {B : BlockSize} {g : ℚ≥0} {c : Client B} {m' : SegmentManager} {segs segs' : List Segment}
  {chain chain' : ℕ → List ℕ} {i b pick : ℕ} {s : Segment} {id id' : UInt64} {p q : ℕ × ℕ}
  {f' : ByteFile} {hd' : ManagerHeader}

namespace SegmentManager

/-- The first block that segment `i` has to offer: the head of its chain, or its first unused one. -/
def firstBlock (m : SegmentManager) (i : ℕ) : ℕ :=
  match m.segments[i]? with
  | some (some s) => s.header.freeNodesHead.getD s.header.occupiedBlocks
  | _ => 0

/-- The block that `createBlock` is about to hand out fits into the two fields of an id: it is the
first block of a new segment, or the first one of a free segment. -/
def InRange (m : SegmentManager) (pick : ℕ) : Prop :=
  if m.freeSegments = ∅ then m.segments.length < segmentLimit
  else m.firstFree pick < segmentLimit ∧ m.firstBlock (m.firstFree pick) < blockLimit

instance (m : SegmentManager) (pick : ℕ) : Decidable (m.InRange pick) :=
  inferInstanceAs (Decidable (if m.freeSegments = ∅ then m.segments.length < segmentLimit
    else m.firstFree pick < segmentLimit ∧ m.firstBlock (m.firstFree pick) < blockLimit))

/-- The next segment keeps the manager below `2 ^ 16` segments of less than `2 ^ 48` blocks. -/
def StaysBelow (m : SegmentManager) (_pick : ℕ) : Prop :=
  m.freeSegments = ∅ → m.segments.length + 1 < segmentLimit ∧ m.nextSize < blockLimit

/-- And it ends inside the file. -/
def StaysInFile (B : BlockSize) (m : SegmentManager) (pick : ℕ) : Prop :=
  m.StaysBelow pick ∧ (m.freeSegments = ∅ → m.FitsFile B)

/-- The segments there are, one behind the other, end inside the file. -/
def InFile (B : BlockSize) (m : SegmentManager) : Prop :=
  ending B B.bytes (m.segments.filterMap fun s => s) < ByteFile.limit

end SegmentManager

/-- `InRange` is about the block that is handed out. -/
theorem Allocation.inRange {m : SegmentManager} (h : Counts B m segs chain)
    (w : Allocation B m segs chain pick i b segs' chain' f' hd') :
    m.InRange pick ↔ i < segmentLimit ∧ b < blockLimit := by
  unfold InRange
  cases w with
  | @reused s s' b l' hne hs w =>
    have hb := w.first (h.chained _ s hs)
    have hfirst : m.firstBlock (m.firstFree pick) = b := by
      unfold firstBlock
      rw [h.getElem? hs]
      exact hb
    rw [if_neg hne.ne_empty, hfirst]
  | grown he hlt ho w =>
    rw [if_pos he, h.length]
    exact (and_iff_left (by decide)).symm

theorem Allocation.few {m : SegmentManager} (w : Allocation B m segs chain pick i b segs' chain' f' hd')
    (hf : segs.length ≤ segmentLimit) (hi : i < segmentLimit) : segs'.length ≤ segmentLimit := by
  cases w with
  | reused hne hs w => rwa [List.length_set]
  | grown he hlt ho w =>
    rw [List.length_append, List.length_singleton]
    exact hi

/-- The blocks that are handed out are those the headers and the chains leave. -/
structure Booked (B : BlockSize) (c : Client B) (segs : List Segment) (chain : ℕ → List ℕ) : Prop where
  counts : Counts B c.manager segs chain
  few : segs.length ≤ segmentLimit
  below : ∀ (i : ℕ) (s : Segment), segs[i]? = some s → ∀ b ∈ chain i, b < s.header.occupiedBlocks
  blocks : ∀ i b, (i, b) ∈ c.blocks ↔
    ∃ s, segs[i]? = some s ∧ b < s.header.occupiedBlocks ∧ b ∉ chain i
  range : ∀ p ∈ c.blocks, p.1 < segmentLimit ∧ p.2 < blockLimit

namespace Booked

variable (h : Booked B c segs chain)
include h

/-- The id of a block that is handed out leads back to it. -/
theorem index (hp : p ∈ c.blocks) : getIndexFromID (idOf p) = p.1 := by
  unfold idOf
  exact index_packID_of_lt (h.range p hp).1 (h.range p hp).2

theorem block (hp : p ∈ c.blocks) : getBlockFromID (idOf p) = p.2 := by
  unfold idOf
  exact block_packID_of_lt (h.range p hp).1 (h.range p hp).2

theorem idOf_injOn (hp : p ∈ c.blocks) (hq : q ∈ c.blocks) (he : idOf p = idOf q) : p = q := by
  have h₁ := h.index hp
  have h₂ := h.block hp
  rw [he, h.index hq] at h₁
  rw [he, h.block hq] at h₂
  exact Prod.ext h₁.symm h₂.symm

theorem mem_live : id ∈ c.live ↔ (getIndexFromID id, getBlockFromID id) ∈ c.blocks := by
  constructor
  · intro hid
    obtain ⟨p, hp, rfl⟩ := Finset.mem_image.mp hid
    rw [h.index hp, h.block hp]
    exact hp
  · intro hp
    exact Finset.mem_image.mpr ⟨_, hp, packID_of_id id⟩

/-- Where the block of a live id is. -/
theorem find (hid : id ∈ c.live) : ∃ s, segs[getIndexFromID id]? = some s ∧
    getBlockFromID id < s.header.occupiedBlocks ∧ getBlockFromID id < s.header.allocatedBlocks ∧
    getBlockFromID id ∉ chain (getIndexFromID id) := by
  obtain ⟨s, hs, ho, hl⟩ := (h.blocks _ _).mp (h.mem_live.mp hid)
  exact ⟨s, hs, ho, lt_of_lt_of_le ho (h.counts.chained _ s hs).occupied_le, hl⟩

end Booked

/-- And the segments lie in the file, where a block holds what was last written to it. -/
structure Exact (B : BlockSize) (c : Client B) (segs : List Segment) (chain : ℕ → List ℕ) : Prop
    extends Booked B c segs chain where
  shape : Shape B c.manager.file c.manager.header segs chain
  data : ∀ id d, c.data id = some d → id ∈ c.live ∧ c.manager.readBlock B id = .ok d

namespace Exact

variable (h : Exact B c segs chain)
include h

theorem inv : Inv B c.manager segs chain := ⟨h.shape, h.counts.segments, h.counts.free⟩

/-- A live block that is not the one a call is about reads the same after the call. -/
theorem read_other (hinv : Inv B m' segs' chain') (k : Kept segs segs') {t : Segment}
    (ht : segs[getIndexFromID id']? = some t) (hb' : getBlockFromID id' < t.header.allocatedBlocks)
    (hc : ByteFile.Changed (t.start B (getBlockFromID id')) (t.start B (getBlockFromID id') + B.bytes)
      c.manager.file m'.file) (hid : id ∈ c.live) (hne : id ≠ id') :
    m'.readBlock B id = c.manager.readBlock B id := by
  obtain ⟨s, hs, -, hb, -⟩ := h.find hid
  exact readBlock_kept h.inv hinv k hc hs hb (ids_disjoint h.inv hne hs hb ht hb')

/-- Every live block reads the same after a call that writes nothing. -/
theorem read_quiet (hinv : Inv B m' segs' chain') (k : Kept segs segs')
    (hc : ByteFile.Changed 0 0 c.manager.file m'.file) (hid : id ∈ c.live) :
    m'.readBlock B id = c.manager.readBlock B id := by
  obtain ⟨s, hs, -, hb, -⟩ := h.find hid
  exact readBlock_kept h.inv hinv k hc hs hb (.inr (Nat.zero_le _))

/-- Every live block reads the same after `flush`. -/
theorem read_flush (hinv : Inv B m' segs chain) (hsame : SameBlocks B segs c.manager.file m'.file)
    (hid : id ∈ c.live) : m'.readBlock B id = c.manager.readBlock B id := by
  obtain ⟨s, hs, -, hb, -⟩ := h.find hid
  rw [readBlock_eq h.counts hs, readBlock_eq hinv.toCounts hs]
  exact hsame _ _ s hs hb

end Exact

/-! ## The calls -/

theorem Booked.fresh {m : SegmentManager} (hr : construct B g none = .ok m) :
    Booked B ⟨m, ∅, fun _ => none⟩ [] fun _ => [] := by
  refine ⟨(Inv.fresh hr).toCounts, Nat.zero_le _, fun _ _ hs => (nomatch hs),
    fun i b => iff_of_false (Finset.notMem_empty _) ?_, fun p hp => absurd hp (Finset.notMem_empty p)⟩
  rintro ⟨s, hs, -⟩
  exact nomatch hs

theorem Exact.fresh {m : SegmentManager} (hr : construct B g none = .ok m) :
    Exact B ⟨m, ∅, fun _ => none⟩ [] fun _ => [] :=
  ⟨.fresh hr, (Inv.fresh hr).toShape, fun _ _ hd => nomatch hd⟩

/-- A block that is handed out was neither used nor in use; the others stay as they were. -/
theorem Segment.Handed.blocks {f : ByteFile} {l l' : List ℕ} {s s' : Segment}
    (w : s.Handed l b s' l') (h : s.Chained B f l) (hl : ∀ a ∈ l, a < s.header.occupiedBlocks) :
    (∀ a ∈ l', a < s'.header.occupiedBlocks) ∧ ¬(b < s.header.occupiedBlocks ∧ b ∉ l) ∧
      ∀ a, (a < s'.header.occupiedBlocks ∧ a ∉ l') ↔
        a = b ∨ (a < s.header.occupiedBlocks ∧ a ∉ l) := by
  cases w with
  | reused b l =>
    have hnd := List.nodup_cons.mp h.nodup
    have hb := hl b List.mem_cons_self
    refine ⟨fun a ha => hl a (List.mem_cons_of_mem _ ha), fun hn => hn.2 List.mem_cons_self,
      fun a => ?_⟩
    dsimp only
    rw [List.mem_cons, not_or]
    by_cases hab : a = b
    · subst hab
      exact iff_of_true ⟨hb, hnd.1⟩ (.inl rfl)
    · simp only [hab, false_or, not_false_eq_true, true_and]
  | unused ho =>
    refine ⟨fun a ha => (nomatch ha), fun hn => lt_irrefl _ hn.1, fun a => ?_⟩
    simp only [List.not_mem_nil, not_false_eq_true, and_true]
    exact Nat.lt_succ_iff_lt_or_eq.trans or_comm

/-- The blocks after one is handed out. -/
theorem Booked.allocated (h : Booked B c segs chain)
    (w : Allocation B c.manager segs chain pick i b segs' chain' f' hd') :
    (∀ (j : ℕ) (t : Segment), segs'[j]? = some t → ∀ a ∈ chain' j, a < t.header.occupiedBlocks) ∧
      (∀ j a, (j, a) ∈ insert (i, b) c.blocks ↔
        ∃ t, segs'[j]? = some t ∧ a < t.header.occupiedBlocks ∧ a ∉ chain' j) ∧
      (i, b) ∉ c.blocks := by
  cases w with
  | @reused s s' _ l' hne hs w =>
    set i := c.manager.firstFree pick with hi
    obtain ⟨hbelow, hnew, hblocks⟩ := w.blocks (h.counts.chained i s hs) (h.below i s hs)
    refine ⟨fun j t ht a ha => ?_, fun j a => ?_, fun hmem => ?_⟩
    · rcases Shape.get_set ht with ⟨rfl, rfl⟩ | ⟨hj, ht⟩
      · rw [Function.update_self] at ha
        exact hbelow a ha
      · rw [Function.update_of_ne hj] at ha
        exact h.below j t ht a ha
    · rw [Finset.mem_insert, h.blocks]
      by_cases hj : j = i
      · subst hj
        rw [List.getElem?_set_self (List.getElem?_eq_some_iff.mp hs).1, Function.update_self, hs]
        simp only [Option.some.injEq, exists_eq_left', hblocks, Prod.mk.injEq, true_and]
      · rw [List.getElem?_set_ne (Ne.symm hj), Function.update_of_ne hj]
        exact or_iff_right fun he => hj (Prod.mk.inj he).1
    · obtain ⟨t, ht, hb⟩ := (h.blocks _ _).mp hmem
      obtain rfl : s = t := Option.some.inj (hs.symm.trans ht)
      exact hnew hb
  | @grown s' o he hlt ho w =>
    have hch : (Segment.create B o c.manager.nextSize).Chained B c.manager.file [] := Segment.Chained.create hlt
    obtain ⟨hbelow, -, hblocks⟩ := w.blocks hch fun a ha => nomatch ha
    have hnot : ∀ a, (segs.length, a) ∉ c.blocks := by
      intro a hmem
      obtain ⟨t, ht, -⟩ := (h.blocks _ _).mp hmem
      exact absurd (List.getElem?_eq_some_iff.mp ht).1 (lt_irrefl _)
    refine ⟨fun j t ht a ha => ?_, fun j a => ?_, hnot 0⟩
    · rcases Shape.get_concat ht with ⟨rfl, rfl⟩ | ⟨hj, ht⟩
      · rw [Function.update_self] at ha
        exact nomatch ha
      · rw [Function.update_of_ne hj] at ha
        exact h.below j t ht a ha
    · rw [Finset.mem_insert]
      by_cases hj : j = segs.length
      · subst hj
        rw [List.getElem?_concat_length, Function.update_self]
        have hzero : (Segment.create B o c.manager.nextSize).header.occupiedBlocks = 0 := rfl
        simp only [Option.some.injEq, exists_eq_left', hblocks, hzero, Nat.not_lt_zero, false_and,
          or_false, Prod.mk.injEq, true_and, hnot]
      · have hget : (segs ++ [s'])[j]? = segs[j]? ∨ (segs ++ [s'])[j]? = none ∧ segs[j]? = none := by
          rcases Nat.lt_or_gt_of_ne hj with hlt' | hgt
          · exact .inl (List.getElem?_append_left hlt')
          · refine .inr ⟨List.getElem?_eq_none ?_, List.getElem?_eq_none (by omega)⟩
            rw [List.length_append, List.length_singleton]
            omega
        have hget' : (segs ++ [s'])[j]? = segs[j]? := hget.elim id fun hn => hn.1.trans hn.2.symm
        rw [hget', Function.update_of_ne hj, h.blocks]
        exact or_iff_right fun he => hj (Prod.mk.inj he).1

/-- `createBlock` hands out a new block, wherever the new segment goes. -/
theorem Booked.create (h : Booked B c segs chain) (hin : c.manager.InRange pick)
    (hr : c.manager.allocate B pick = .ok ((i, b), m')) (d : UInt64 → Option (Block B)) :
    ∃ segs' chain', Booked B ⟨m', insert (i, b) c.blocks, d⟩ segs' chain' ∧
      Allocation B c.manager segs chain pick i b segs' chain' m'.file m'.header ∧ idOf (i, b) ∉ c.live := by
  obtain ⟨segs', chain', hcounts, w, -⟩ := allocate_cases h.counts hr
  obtain ⟨hbelow, hblocks, hnew⟩ := h.allocated w
  obtain ⟨hi, hb⟩ := (w.inRange h.counts).mp hin
  refine ⟨segs', chain', ⟨hcounts, w.few h.few hi, hbelow, hblocks, fun p hp => ?_⟩, w, fun hlive => ?_⟩
  · rcases Finset.mem_insert.mp hp with rfl | hp
    · exact ⟨hi, hb⟩
    · exact h.range p hp
  · have hmem := h.mem_live.mp hlive
    unfold idOf at hmem
    rw [index_packID_of_lt hi hb, block_packID_of_lt hi hb] at hmem
    exact hnew hmem

/-- In a new segment that ends inside the file it leaves the other blocks as they are. -/
theorem Exact.create (h : Exact B c segs chain) (hin : c.manager.InRange pick)
    (hfit : c.manager.freeSegments = ∅ → c.manager.FitsFile B)
    (hr : c.manager.allocate B pick = .ok ((i, b), m')) :
    (∃ segs' chain', Exact B ⟨m', insert (i, b) c.blocks, c.data⟩ segs' chain' ∧
        Allocation B c.manager segs chain pick i b segs' chain' m'.file m'.header) ∧
      idOf (i, b) ∉ c.live ∧ ∀ id ∈ c.live, m'.readBlock B id = c.manager.readBlock B id := by
  obtain ⟨segs', chain', hbooked, w, hnew⟩ := h.toBooked.create hin hr c.data
  have hinv : Inv B m' segs' chain' := w.inv h.inv hfit hbooked.counts
  have hquiet : ∀ id ∈ c.live, m'.readBlock B id = c.manager.readBlock B id :=
    fun id hid => h.read_quiet hinv w.kept (w.changed h.inv hfit) hid
  refine ⟨⟨segs', chain', ⟨hbooked, hinv.toShape, fun id d hd => ?_⟩, w⟩, hnew, hquiet⟩
  obtain ⟨hid, hread⟩ := h.data id d hd
  refine ⟨Finset.image_subset_image (Finset.subset_insert _ _) hid, ?_⟩
  rw [hquiet id hid]
  exact hread

/-- A live block is taken back. -/
theorem Booked.deleted (h : Booked B c segs chain) (hid : id ∈ c.live) (hs : segs[getIndexFromID id]? = some s)
    (hc : Counts B m' (segs.set (getIndexFromID id) (s.afterDelete (getBlockFromID id)))
      (Function.update chain (getIndexFromID id) (getBlockFromID id :: chain (getIndexFromID id))))
    (d : UInt64 → Option (Block B)) :
    Booked B ⟨m', c.blocks.filter fun p => idOf p ≠ id, d⟩
      (segs.set (getIndexFromID id) (s.afterDelete (getBlockFromID id)))
      (Function.update chain (getIndexFromID id) (getBlockFromID id :: chain (getIndexFromID id))) := by
  obtain ⟨s', hs', ho, -, -⟩ := h.find hid
  obtain rfl : s = s' := Option.some.inj (hs.symm.trans hs')
  have hlt := (List.getElem?_eq_some_iff.mp hs).1
  refine ⟨hc, ?_, ?_, ?_, ?_⟩
  · rw [List.length_set]
    exact h.few
  · intro j t ht a ha
    rcases Shape.get_set ht with ⟨rfl, rfl⟩ | ⟨hj, ht⟩
    · rw [Function.update_self] at ha
      rcases List.mem_cons.mp ha with rfl | ha
      · exact ho
      · exact h.below _ s hs a ha
    · rw [Function.update_of_ne hj] at ha
      exact h.below j t ht a ha
  · intro j a
    rw [Finset.mem_filter]
    have hne : (j, a) ∈ c.blocks → (idOf (j, a) ≠ id ↔ ¬(j = getIndexFromID id ∧ a = getBlockFromID id)) := by
      intro hmem
      refine not_congr ⟨?_, ?_⟩
      · rintro rfl
        exact ⟨(h.index hmem).symm, (h.block hmem).symm⟩
      · rintro ⟨rfl, rfl⟩
        exact packID_of_id id
    rw [and_congr_right hne, h.blocks]
    by_cases hj : j = getIndexFromID id
    · subst hj
      rw [List.getElem?_set_self hlt, Function.update_self, hs]
      simp only [Option.some.injEq, exists_eq_left', Segment.occupied_afterDelete, List.mem_cons,
        not_or, true_and]
      tauto
    · rw [List.getElem?_set_ne (Ne.symm hj), Function.update_of_ne hj]
      exact and_iff_left fun he => hj he.1
  · exact fun p hp => h.range p (Finset.mem_of_mem_filter p hp)

/-- Nothing changes but the file. -/
theorem Booked.same (h : Booked B c segs chain) (hc : Counts B m' segs chain) (d : UInt64 → Option (Block B)) :
    Booked B ⟨m', c.blocks, d⟩ segs chain :=
  ⟨hc, h.few, h.below, h.blocks, h.range⟩

/-- `deleteBlock` takes one block back. -/
theorem Exact.delete (h : Exact B c segs chain) (hid : id ∈ c.live) :
    ∃ m', c.manager.deleteBlock B id = .ok m' ∧
      (∃ segs' chain', Exact B ⟨m', c.blocks.filter fun p => idOf p ≠ id, Function.update c.data id none⟩
        segs' chain' ∧ Kept segs segs' ∧ segs'.length = segs.length) ∧
      ∀ id' ∈ c.live, id' ≠ id → m'.readBlock B id' = c.manager.readBlock B id' := by
  obtain ⟨s, hs, ho, hb, hl⟩ := h.find hid
  obtain ⟨m', hr, hinv, hc, -, -⟩ := deleteBlock_spec h.inv hs hb hl
  have hother : ∀ id' ∈ c.live, id' ≠ id → m'.readBlock B id' = c.manager.readBlock B id' :=
    fun id' hid' hne => h.read_other hinv (Kept.set hs rfl rfl) hs hb hc hid' hne
  refine ⟨m', hr, ⟨_, _, ⟨h.toBooked.deleted hid hs hinv.toCounts _, hinv.toShape, fun id' d hd => ?_⟩,
    Kept.set hs rfl rfl, List.length_set⟩, hother⟩
  by_cases hne : id' = id
  · subst hne
    dsimp only at hd
    rw [Function.update_self] at hd
    exact nomatch hd
  · dsimp only at hd
    rw [Function.update_of_ne hne] at hd
    obtain ⟨hid', hread⟩ := h.data id' d hd
    obtain ⟨p, hp, rfl⟩ := Finset.mem_image.mp hid'
    refine ⟨Finset.mem_image.mpr ⟨p, Finset.mem_filter.mpr ⟨hp, hne⟩, rfl⟩, ?_⟩
    rw [hother _ hid' hne]
    exact hread

/-- `writeBlock` changes what one block holds. -/
theorem Exact.write (h : Exact B c segs chain) (data : Block B) (hid : id ∈ c.live) :
    ∃ m', c.manager.writeBlock B id data = .ok m' ∧
      Exact B ⟨m', c.blocks, Function.update c.data id (some data)⟩ segs chain ∧
      ∀ id' ∈ c.live, id' ≠ id → m'.readBlock B id' = c.manager.readBlock B id' := by
  obtain ⟨s, hs, ho, hb, hl⟩ := h.find hid
  obtain ⟨m', hr, hinv, hc, hread, -, -⟩ := writeBlock_spec h.inv data hs hb hl
  have hother : ∀ id' ∈ c.live, id' ≠ id → m'.readBlock B id' = c.manager.readBlock B id' :=
    fun id' hid' hne => h.read_other hinv (Kept.refl segs) hs hb hc hid' hne
  refine ⟨m', hr, ⟨h.toBooked.same hinv.toCounts _, hinv.toShape, fun id' d hd => ?_⟩, hother⟩
  by_cases hne : id' = id
  · subst hne
    dsimp only at hd
    rw [Function.update_self] at hd
    obtain rfl := Option.some.inj hd
    exact ⟨hid, hread⟩
  · dsimp only at hd
    rw [Function.update_of_ne hne] at hd
    obtain ⟨hid', hread'⟩ := h.data id' d hd
    refine ⟨hid', ?_⟩
    rw [hother id' hid' hne]
    exact hread'

/-- `flush` touches no block. -/
theorem Exact.flush (h : Exact B c segs chain) :
    ∃ m', c.manager.flush = .ok m' ∧ Exact B ⟨m', c.blocks, c.data⟩ segs chain ∧
      ∀ id ∈ c.live, m'.readBlock B id = c.manager.readBlock B id := by
  have hlen : segs.length < UInt64.size := lt_of_le_of_lt h.few (by decide)
  obtain ⟨f', hr, hinv, hsame, -⟩ := flush_spec h.inv hlen
  have hread : ∀ id ∈ c.live, SegmentManager.readBlock B { c.manager with file := f' } id
      = c.manager.readBlock B id := fun id hid => h.read_flush hinv hsame hid
  refine ⟨_, hr, ⟨h.toBooked.same hinv.toCounts _, hinv.toShape, fun id d hd => ?_⟩, hread⟩
  obtain ⟨hid, hd'⟩ := h.data id d hd
  refine ⟨hid, ?_⟩
  rw [hread id hid]
  exact hd'

/-! ## Runs below the limits -/

/-- Fewer than `2 ^ 16` segments of fewer than `2 ^ 48` blocks. -/
def Bounded (segs : List Segment) : Prop :=
  segs.length < segmentLimit ∧ ∀ s ∈ segs, s.header.allocatedBlocks < blockLimit

theorem Bounded.kept (h : Bounded segs) (k : Kept segs segs') (hlen : segs'.length = segs.length) :
    Bounded segs' := by
  refine ⟨hlen ▸ h.1, fun s' hs' => ?_⟩
  obtain ⟨i, hi⟩ := List.mem_iff_getElem?.mp hs'
  have hlt := (List.getElem?_eq_some_iff.mp hi).1
  obtain ⟨t, ht, -, ha⟩ := k i _ (List.getElem?_eq_getElem (hlen ▸ hlt))
  obtain rfl : t = s' := Option.some.inj (ht.symm.trans hi)
  rw [ha]
  exact h.2 _ (List.getElem_mem _)

/-- Below the limits every new block is in range. -/
theorem Bounded.inRange (hs : Bounded segs) (h : Booked B c segs chain) (hP : c.manager.StaysBelow pick) :
    c.manager.InRange pick := by
  unfold InRange
  split
  · rename_i he
    have hn := (hP he).1
    omega
  · rename_i hne
    obtain ⟨s, hget, hfree⟩ :=
      (h.counts.free _).mp (@firstFree_mem _ pick (Finset.nonempty_iff_ne_empty.mpr hne))
    obtain ⟨b, s', l', -, w⟩ := Segment.createBlock_spec (h.counts.chained _ s hget) hfree
    refine ⟨lt_trans (List.getElem?_eq_some_iff.mp hget).1 hs.1, ?_⟩
    unfold firstBlock
    rw [h.counts.getElem? hget]
    show s.header.freeNodesHead.getD s.header.occupiedBlocks < blockLimit
    rw [w.first (h.counts.chained _ s hget)]
    exact lt_trans (w.lt_allocated (h.counts.chained _ s hget))
      (hs.2 s (List.mem_of_getElem? hget))

/-- What a write or `flush` changes is the file. -/
theorem writeBlock_file {m : SegmentManager} {data : Block B} (hr : m.writeBlock B id data = .ok m') :
    ∃ f, m' = { m with file := f } := by
  unfold SegmentManager.writeBlock at hr
  split at hr
  next => exact nomatch hr
  next => exact nomatch hr
  next =>
    obtain ⟨f, -, hr⟩ := bind_ok hr
    exact ⟨f, (Except.ok.inj hr).symm⟩

theorem flush_file {m : SegmentManager} (hr : m.flush = .ok m') : ∃ f, m' = { m with file := f } := by
  unfold SegmentManager.flush at hr
  obtain ⟨f₁, -, hr⟩ := bind_ok hr
  obtain ⟨f, -, hr⟩ := bind_ok hr
  exact ⟨f, (Except.ok.inj hr).symm⟩

/-- Empty chains are in any file. -/
theorem Counts.of_file {m : SegmentManager} (h : Counts B m segs chain)
    (hnil : ∀ (i : ℕ) (s : Segment), segs[i]? = some s → chain i = []) (f : ByteFile) :
    Counts B { m with file := f } segs chain := by
  refine ⟨{ h.toCore with chained := fun i s hs => ?_ }, h.segments, h.free⟩
  have hch := h.chained i s hs
  rw [hnil i s hs] at hch ⊢
  exact hch.of_nil f

/-- The segments lie in the file, or they end behind all files and no block is deleted. -/
structure Held (B : BlockSize) (c : Client B) (segs : List Segment) (chain : ℕ → List ℕ) : Prop
    extends Booked B c segs chain where
  place : Shape B c.manager.file c.manager.header segs chain ∨ ByteFile.limit ≤ ending B B.bytes segs ∧
    ∀ (i : ℕ) (s : Segment), segs[i]? = some s → chain i = []

namespace Held

variable (h : Held B c segs chain)
include h

/-- `createBlock`, wherever the new segment goes. -/
theorem create (hin : c.manager.InRange pick) (hr : c.manager.allocate B pick = .ok ((i, b), m')) :
    ∃ segs' chain', Held B ⟨m', insert (i, b) c.blocks, c.data⟩ segs' chain' := by
  obtain ⟨segs', chain', hbooked, w, -⟩ := h.toBooked.create hin hr c.data
  refine ⟨segs', chain', hbooked, ?_⟩
  rcases h.place with hshape | ⟨hend, hnil⟩
  · have hinv : Inv B c.manager segs chain := ⟨hshape, h.counts.segments, h.counts.free⟩
    by_cases hfit : c.manager.freeSegments = ∅ → c.manager.FitsFile B
    · exact .inl (w.inv hinv hfit hbooked.counts).toShape
    · obtain ⟨he, hfit⟩ := Classical.not_imp.mp hfit
      refine .inr ?_
      generalize m'.file = f, m'.header = hd at w
      cases w with
      | reused hne => exact absurd he hne.ne_empty
      | @grown s' o _ _ ho w =>
        have hoff := nextOffset_eq hshape h.counts.length h.counts.newest
        obtain rfl := Except.ok.inj (hoff.symm.trans ho)
        refine ⟨?_, fun j t ht => ?_⟩
        · by_contra hlt
          refine hfit fun o' ho' => ?_
          obtain rfl := Except.ok.inj (hoff.symm.trans ho')
          rw [ending_append, Segment.extent, w.allocatedBlocks, ← Nat.add_assoc] at hlt
          exact not_le.mp hlt
        · rcases Shape.get_concat ht with ⟨rfl, -⟩ | ⟨hj, ht⟩
          · rw [Function.update_self]
          · rw [Function.update_of_ne hj]
            exact h.counts.chain_eq_nil he ht
  · refine .inr ?_
    generalize m'.file = f, m'.header = hd at w
    cases w with
    | @reused s s' _ l' hne hs w =>
      rw [ending_set hs w.allocatedBlocks]
      refine ⟨hend, fun j t ht => ?_⟩
      rcases Shape.get_set ht with ⟨rfl, -⟩ | ⟨hj, ht⟩
      · rw [Function.update_self]
        rw [hnil _ s hs] at w
        exact List.eq_nil_of_subset_nil w.subset
      · rw [Function.update_of_ne hj]
        exact hnil j t ht
    | grown he hlt ho w =>
      rw [ending_append]
      refine ⟨hend.trans (Nat.le_add_right _ _), fun j t ht => ?_⟩
      rcases Shape.get_concat ht with ⟨rfl, -⟩ | ⟨hj, ht⟩
      · rw [Function.update_self]
      · rw [Function.update_of_ne hj]
        exact hnil j t ht

/-- `deleteBlock`, as long as the segments end inside the file. -/
theorem delete (hQ : c.manager.InFile B) (hid : id ∈ c.live) (hr : c.manager.deleteBlock B id = .ok m')
    (d : UInt64 → Option (Block B)) :
    ∃ segs' chain', Held B ⟨m', c.blocks.filter fun p => idOf p ≠ id, d⟩ segs' chain' := by
  have hlt : ending B B.bytes segs < ByteFile.limit := by
    unfold InFile at hQ
    rwa [h.counts.segments, List.filterMap_map, show (fun s => s) ∘ some = (some : Segment → Option Segment) from rfl,
      List.filterMap_some] at hQ
  have hshape := h.place.resolve_right fun hb => absurd hlt (not_lt.mpr hb.1)
  have hinv : Inv B c.manager segs chain := ⟨hshape, h.counts.segments, h.counts.free⟩
  obtain ⟨s, hs, -, hb, hl⟩ := h.find hid
  obtain ⟨m₁, hr', hinv', -⟩ := deleteBlock_spec hinv hs hb hl
  obtain rfl := Except.ok.inj (hr'.symm.trans hr)
  exact ⟨_, _, h.toBooked.deleted hid hs hinv'.toCounts d, .inl hinv'.toShape⟩

/-- A write, whatever it hits. -/
theorem write {data : Block B} (hid : id ∈ c.live) (hr : c.manager.writeBlock B id data = .ok m')
    (d : UInt64 → Option (Block B)) : Held B ⟨m', c.blocks, d⟩ segs chain := by
  rcases h.place with hshape | hbeyond
  · have hinv : Inv B c.manager segs chain := ⟨hshape, h.counts.segments, h.counts.free⟩
    obtain ⟨s, hs, -, hb, hl⟩ := h.find hid
    obtain ⟨m₁, hr', hinv', -⟩ := writeBlock_spec hinv data hs hb hl
    obtain rfl := Except.ok.inj (hr'.symm.trans hr)
    exact ⟨h.toBooked.same hinv'.toCounts d, .inl hinv'.toShape⟩
  · obtain ⟨f, rfl⟩ := writeBlock_file hr
    exact ⟨h.toBooked.same (h.counts.of_file hbeyond.2 f) d, .inr hbeyond⟩

theorem flush (hr : c.manager.flush = .ok m') : Held B ⟨m', c.blocks, c.data⟩ segs chain := by
  rcases h.place with hshape | hbeyond
  · have hinv : Inv B c.manager segs chain := ⟨hshape, h.counts.segments, h.counts.free⟩
    obtain ⟨f', hr', hinv', -⟩ := flush_spec hinv (lt_of_le_of_lt h.few (by decide))
    obtain rfl := Except.ok.inj (hr'.symm.trans hr)
    exact ⟨h.toBooked.same hinv'.toCounts _, .inl hinv'.toShape⟩
  · obtain ⟨f, rfl⟩ := flush_file hr
    exact ⟨h.toBooked.same (h.counts.of_file hbeyond.2 f) _, .inr hbeyond⟩

end Held

/-- In a run whose new blocks are all in range, and that deletes none behind the end of the file, the blocks
handed out are those the headers and the chains leave, in every state. -/
theorem session_held (h : Session B g InRange (InFile B) c) : ∃ segs chain, Held B c segs chain := by
  induction h with
  | fresh hr => exact ⟨_, _, .fresh hr, .inl (Inv.fresh hr).toShape⟩
  | createBlock pick _ hP hr ih =>
    obtain ⟨segs, chain, h⟩ := ih
    exact h.create hP hr
  | deleteBlock id _ hQ hid hr ih =>
    obtain ⟨segs, chain, h⟩ := ih
    exact h.delete hQ hid hr _
  | writeBlock id data _ hid hr ih =>
    obtain ⟨segs, chain, h⟩ := ih
    exact ⟨segs, chain, h.write hid hr _⟩
  | flush _ hr ih =>
    obtain ⟨segs, chain, h⟩ := ih
    exact ⟨segs, chain, h.flush hr⟩

end BEpsilon.File
