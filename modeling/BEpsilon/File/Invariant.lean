import BEpsilon.File.Layout
import Mathlib.Logic.Function.Basic
import Mathlib.Data.Finset.Insert

/-!
# BEpsilon.File.Invariant — what the segments of one file have in common

`Core` is what the counters and the chains of deleted blocks say of each other, `Shape` the state on disk: the
segments one after the other, the last of them inside the file.  Neither says anything about `freeSegments` or
who holds a mutex, so they are the invariant of one thread and of many; the lemmas are one for each section of
the code.  `Counts` and `Inv` add to them what one thread sees between two calls: `createBlock` keeps `Counts`
wherever the new segment goes, and `Inv` if it ends inside the file (`FitsFile`).
-/

namespace BEpsilon.File

open SegmentManager

variable {B : BlockSize} {f f' : ByteFile} {hd : ManagerHeader} {segs : List Segment}
  {chain : ℕ → List ℕ} {m : SegmentManager} {i j b lo hi n pick : ℕ} {s t s' : Segment} {l' : List ℕ}

/-- The segments `segs`, with their chains of deleted blocks. -/
structure Core (B : BlockSize) (f : ByteFile) (hd : ManagerHeader) (segs : List Segment)
    (chain : ℕ → List ℕ) : Prop where
  number : hd.numberOfSegments = segs.length
  last : hd.lastAllocatedBlocks = (segs.getLast?.map fun s => s.header.allocatedBlocks).getD 0
  chained : ∀ (i : ℕ) (s : Segment), segs[i]? = some s → s.Chained B f (chain i)
  small : ∀ (i : ℕ) (s : Segment), segs[i]? = some s → ∀ b ∈ chain i, b < blockLimit

/-- The segments `segs` on disk, where they are meant to be. -/
structure Shape (B : BlockSize) (f : ByteFile) (hd : ManagerHeader) (segs : List Segment)
    (chain : ℕ → List ℕ) : Prop extends Core B f hd segs chain where
  laid : Laid B B.bytes segs
  size : f.size = ending B B.bytes segs
  size_lt : f.size < ByteFile.limit

namespace Shape

/-- The last entry of a list whose entry `i` is replaced. -/
theorem getLast_set {s t : Segment} (hs : segs[i]? = some s)
    (ha : t.header.allocatedBlocks = s.header.allocatedBlocks) :
    (segs.set i t).getLast?.map (fun s => s.header.allocatedBlocks)
      = segs.getLast?.map fun s => s.header.allocatedBlocks := by
  rw [List.getLast?_eq_getElem?, List.getLast?_eq_getElem?, List.length_set]
  by_cases hi : i = segs.length - 1
  · subst hi
    rw [List.getElem?_set_self (List.getElem?_eq_some_iff.mp hs).1, hs]
    simp only [Option.map_some, ha]
  · rw [List.getElem?_set_ne hi]

/-- What a replaced entry leaves. -/
theorem get_set {α : Type} {l : List α} {x y : α} (h : (l.set i x)[j]? = some y) :
    j = i ∧ y = x ∨ j ≠ i ∧ l[j]? = some y := by
  by_cases hij : i = j
  · subst hij
    have hlt := (List.getElem?_eq_some_iff.mp h).1
    rw [List.length_set] at hlt
    rw [List.getElem?_set_self hlt] at h
    exact .inl ⟨rfl, (Option.some.inj h).symm⟩
  · rw [List.getElem?_set_ne hij] at h
    exact .inr ⟨Ne.symm hij, h⟩

/-- What an added entry leaves. -/
theorem get_concat {α : Type} {l : List α} {x y : α} (h : (l ++ [x])[j]? = some y) :
    j = l.length ∧ y = x ∨ j ≠ l.length ∧ l[j]? = some y := by
  by_cases hj : j = l.length
  · subst hj
    rw [List.getElem?_concat_length] at h
    exact .inl ⟨rfl, (Option.some.inj h).symm⟩
  · have hlt := (List.getElem?_eq_some_iff.mp h).1
    rw [List.length_append, List.length_singleton] at hlt
    rw [List.getElem?_append_left (by omega)] at h
    exact .inr ⟨hj, h⟩

end Shape

namespace Core

theorem fresh (f : ByteFile) : Core B f ⟨0, 0⟩ [] fun _ => [] where
  number := rfl
  last := rfl
  chained _ _ hs := nomatch hs
  small _ _ hs := nomatch hs

/-- A block is handed out: only the header of its segment changes. -/
theorem handed (h : Core B f hd segs chain) (hs : segs[i]? = some s)
    (w : s.Handed (chain i) b s' l') : Core B f hd (segs.set i s') (Function.update chain i l') := by
  have hlast := Shape.getLast_set hs w.allocatedBlocks
  refine ⟨by rw [List.length_set]; exact h.number, by rw [hlast]; exact h.last, ?_, ?_⟩
  · intro j t ht
    rcases Shape.get_set ht with ⟨rfl, rfl⟩ | ⟨hj, ht⟩
    · rw [Function.update_self]
      exact w.chained (h.chained j s hs)
    · rw [Function.update_of_ne hj]
      exact h.chained j t ht
  · intro j t ht a ha
    rcases Shape.get_set ht with ⟨rfl, rfl⟩ | ⟨hj, ht⟩
    · rw [Function.update_self] at ha
      exact h.small j s hs a (w.subset ha)
    · rw [Function.update_of_ne hj] at ha
      exact h.small j t ht a ha

/-- A segment is added behind the others, whose chains are still there. -/
theorem added (h : Core B f hd segs chain) (hn : n < UInt64.size) (o : ℕ)
    (hf : ∀ (i : ℕ) (s : Segment), segs[i]? = some s → s.Chained B f' (chain i)) :
    Core B f' ⟨hd.numberOfSegments + 1, n⟩ (segs ++ [Segment.create B o n])
      (Function.update chain segs.length []) := by
  refine ⟨?_, ?_, ?_, ?_⟩
  · rw [List.length_append, h.number]
    rfl
  · rw [List.getLast?_concat]
    rfl
  · intro i s hs
    rcases Shape.get_concat hs with ⟨rfl, rfl⟩ | ⟨hi, hs⟩
    · rw [Function.update_self]
      exact Segment.Chained.create hn
    · rw [Function.update_of_ne hi]
      exact hf i s hs
  · intro i s hs b hb
    rcases Shape.get_concat hs with ⟨rfl, rfl⟩ | ⟨hi, hs⟩
    · rw [Function.update_self] at hb
      exact nomatch hb
    · rw [Function.update_of_ne hi] at hb
      exact h.small i s hs b hb

end Core

namespace Shape

theorem fresh (hB : B.bytes < ByteFile.limit) :
    Shape B (ByteFile.empty.ftruncate B.bytes) ⟨0, 0⟩ [] fun _ => [] :=
  ⟨.fresh _, trivial, rfl, hB⟩

/-- Every segment lies in the file. -/
theorem inside (h : Shape B f hd segs chain) (hs : segs[i]? = some s) : s.Inside B f :=
  ⟨h.size ▸ (h.laid.bounds hs).2, h.size_lt⟩

/-- A block is handed out. -/
theorem handed (h : Shape B f hd segs chain) (hs : segs[i]? = some s)
    (w : s.Handed (chain i) b s' l') : Shape B f hd (segs.set i s') (Function.update chain i l') := by
  refine ⟨h.toCore.handed hs w, h.laid.set hs w.fileOffset w.allocatedBlocks, ?_, h.size_lt⟩
  rw [ending_set hs w.allocatedBlocks]
  exact h.size

/-- A write beside the chains. -/
theorem frame (h : Shape B f hd segs chain) (c : ByteFile.Changed lo hi f f') (hsize : f'.size = f.size)
    (hd' : ∀ (i : ℕ) (s : Segment), segs[i]? = some s → ∀ b ∈ chain i,
      s.start B b + B.bytes ≤ lo ∨ hi ≤ s.start B b) : Shape B f' hd segs chain :=
  { h with
    size := hsize.trans h.size
    size_lt := hsize ▸ h.size_lt
    chained := fun i s hs => (h.chained i s hs).frame (h.inside hs) c (hd' i s hs) }

/-- A write into a block that is not in a chain. -/
theorem write (h : Shape B f hd segs chain) (hs : segs[i]? = some s)
    (hb : b < s.header.allocatedBlocks) (hl : b ∉ chain i)
    (c : ByteFile.Changed (s.start B b) (s.start B b + B.bytes) f f') (hsize : f'.size = f.size) :
    Shape B f' hd segs chain := by
  refine h.frame c hsize fun j t ht a ha => ?_
  refine h.laid.blocks_disjoint ht hs ((h.chained j t ht).lt a ha) hb fun he => ?_
  obtain ⟨rfl, rfl⟩ := Prod.mk.inj he
  exact hl ha

/-- A block is deleted: it is put in front of its chain, and nothing is written outside it. -/
theorem deleted (h : Shape B f hd segs chain) (hs : segs[i]? = some s)
    (hb : b < s.header.allocatedBlocks) (hl : b ∉ chain i) (hlim : b < blockLimit) :
    ∃ f', s.deleteBlock B f b = .ok (f', s.afterDelete b) ∧ f'.size = f.size ∧
      ByteFile.Changed (s.start B b) (s.start B b + B.bytes) f f' ∧
      Shape B f' hd (segs.set i (s.afterDelete b)) (Function.update chain i (b :: chain i)) := by
  obtain ⟨f', hf', hsize, hc, hch⟩ := Segment.deleteBlock_spec (h.chained i s hs) (h.inside hs) hb hl
  have hlaid := h.laid.set (t := s.afterDelete b) hs rfl rfl
  have hend := ending_set (B := B) (o := B.bytes) (t := s.afterDelete b) hs rfl
  have hlast := getLast_set (t := s.afterDelete b) hs rfl
  have hw := h.write hs hb hl hc hsize
  refine ⟨f', hf', hsize, hc, ⟨by rw [List.length_set]; exact h.number, by rw [hlast]; exact h.last, ?_, ?_⟩,
    hlaid, by rw [hend]; exact hw.size, hw.size_lt⟩
  · intro j t ht
    rcases get_set ht with ⟨rfl, rfl⟩ | ⟨hj, ht⟩
    · rw [Function.update_self]
      exact hch
    · rw [Function.update_of_ne hj]
      exact hw.chained j t ht
  · intro j t ht a ha
    rcases get_set ht with ⟨rfl, rfl⟩ | ⟨hj, ht⟩
    · rw [Function.update_self] at ha
      rcases List.mem_cons.mp ha with rfl | ha
      · exact hlim
      · exact h.small j s hs a ha
    · rw [Function.update_of_ne hj] at ha
      exact h.small j t ht a ha

/-- A segment that ends inside the file is added behind the others. -/
theorem added (h : Shape B f hd segs chain) (hn : n < UInt64.size)
    (hend : ending B B.bytes segs + B.bytes + n * B.bytes < ByteFile.limit) :
    Shape B (f.ftruncate (ending B B.bytes segs + B.bytes + n * B.bytes)) ⟨hd.numberOfSegments + 1, n⟩
      (segs ++ [Segment.create B (ending B B.bytes segs) n])
      (Function.update chain segs.length []) := by
  have hgrow : f.size ≤ ending B B.bytes segs + B.bytes + n * B.bytes := by
    rw [h.size]
    omega
  refine ⟨h.toCore.added hn _ fun i s hs => ?_, h.laid.append rfl, ?_, hend⟩
  · exact (h.chained i s hs).frame (h.inside hs) (ByteFile.Changed.ftruncate hgrow 0) fun b _ =>
      .inr (Nat.zero_le _)
  · rw [ending_append]
    exact Nat.add_assoc ..

end Shape

/-! ## A new segment -/

/-- A new segment ends inside the file. -/
def SegmentManager.FitsFile (B : BlockSize) (m : SegmentManager) : Prop :=
  ∀ o, m.nextOffset B = .ok o → o + B.bytes + m.nextSize * B.bytes < ByteFile.limit

instance fitsFile_decidable (B : BlockSize) (m : SegmentManager) : Decidable (m.FitsFile B) :=
  match h : m.nextOffset B with
  | .ok o => decidable_of_iff (o + B.bytes + m.nextSize * B.bytes < ByteFile.limit)
      ⟨fun hlt _ ho => Except.ok.inj (h.symm.trans ho) ▸ hlt, fun hfit => hfit o h⟩
  | .error _ => .isTrue fun _ ho => absurd (h.symm.trans ho) (by simp)

/-- The offset that `createBlock` computes for a new segment. -/
theorem nextOffset_eq (h : Shape B m.file m.header segs chain)
    (hlen : m.segments.length = segs.length)
    (hlast : ∀ s, segs.getLast? = some s → m.segmentAt (segs.length - 1) = .ok s) :
    m.nextOffset B = .ok (ending B B.bytes segs) := by
  unfold SegmentManager.nextOffset
  rw [h.number]
  by_cases h0 : segs.length = 0
  · rw [if_pos h0, List.length_eq_zero_iff.mp h0]
    rfl
  · have hne : segs ≠ [] := fun hnil => h0 (List.length_eq_zero_iff.mpr hnil)
    obtain ⟨s, hs⟩ : ∃ s, segs.getLast? = some s := ⟨_, List.getLast?_eq_some_getLast hne⟩
    have hin : s.Inside B m.file := h.inside (by rwa [← List.getLast?_eq_getElem?])
    have hlt : ending B B.bytes segs < UInt64.size :=
      (h.size ▸ h.size_lt : ending B B.bytes segs < ByteFile.limit).trans Segment.limit_lt
    rw [if_neg h0, hlen, hlast s hs]
    show Except.ok _ = _
    rw [hin.getTotalSize_eq, h.laid.getLast hs, Nat.mod_eq_of_lt hlt]

/-- It computes some offset as long as the last segment is initialised. -/
theorem exists_nextOffset (h : Core B m.file m.header segs chain) (hlen : m.segments.length = segs.length)
    (hlast : ∀ s, segs.getLast? = some s → m.segmentAt (segs.length - 1) = .ok s) :
    ∃ o, m.nextOffset B = .ok o := by
  unfold SegmentManager.nextOffset
  rw [h.number]
  by_cases h0 : segs.length = 0
  · exact ⟨_, if_pos h0⟩
  · have hne : segs ≠ [] := fun hnil => h0 (List.length_eq_zero_iff.mpr hnil)
    rw [if_neg h0, hlen, hlast _ (List.getLast?_eq_some_getLast hne)]
    exact ⟨_, rfl⟩

/-- What `addSegment` does. -/
theorem addSegment_eq (h : Core B m.file m.header segs chain) (hlen : m.segments.length = segs.length) {o : ℕ}
    (ho : m.nextOffset B = .ok o) (he : m.freeSegments = ∅) :
    m.addSegment B = if m.nextSize < UInt64.size then
        .ok ((segs.length, o, m.nextSize), { m with
          header := ⟨m.header.numberOfSegments + 1, m.nextSize⟩
          segments := m.segments ++ [none]
          freeSegments := {segs.length}
          file := m.file.resize ((o + B.bytes + m.nextSize * B.bytes) % UInt64.size) })
      else .error .badConversion := by
  have hzero : ¬(m.segments = [] ∧ m.header.numberOfSegments ≠ 0) := by
    rintro ⟨hnil, hne⟩
    rw [h.number, ← hlen, hnil] at hne
    exact hne rfl
  unfold addSegment nextAllocation
  rw [if_neg hzero, if_neg (not_not.mpr he)]
  split
  · show (m.nextOffset B >>= _) = _
    rw [ho, he, hlen]
    rfl
  · rfl

/-- A file that is made as long as a segment inside it needs. -/
theorem resize_fits {o : ℕ} (hend : o + B.bytes + n * B.bytes < ByteFile.limit) :
    f.resize ((o + B.bytes + n * B.bytes) % UInt64.size) = f.ftruncate (o + B.bytes + n * B.bytes) := by
  rw [Nat.mod_eq_of_lt (hend.trans Segment.limit_lt)]
  exact ByteFile.resize_of_lt hend

/-! ## One thread -/

/-- What one thread finds between two calls: every segment is initialised, and `freeSegments` holds
those with a free block. -/
structure Counts (B : BlockSize) (m : SegmentManager) (segs : List Segment) (chain : ℕ → List ℕ) : Prop
    extends Core B m.file m.header segs chain where
  segments : m.segments = segs.map some
  free : ∀ i, i ∈ m.freeSegments ↔ ∃ s, segs[i]? = some s ∧ 0 < s.freeBlocks

/-- The same, with every segment where it is meant to be. -/
structure Inv (B : BlockSize) (m : SegmentManager) (segs : List Segment) (chain : ℕ → List ℕ) : Prop
    extends Shape B m.file m.header segs chain, Counts B m segs chain

theorem firstFree_mem (h : m.freeSegments.Nonempty) : m.firstFree pick ∈ m.freeSegments := by
  unfold firstFree
  split
  · assumption
  · obtain ⟨a, ha⟩ := Finset.min_of_nonempty h
    rw [ha]
    exact Finset.mem_of_min ha

namespace Counts

variable (h : Counts B m segs chain)
include h

theorem getElem? (hs : segs[i]? = some s) : m.segments[i]? = some (some s) := by
  rw [h.segments, List.getElem?_map, hs]
  rfl

theorem segmentAt (hs : segs[i]? = some s) : m.segmentAt i = .ok s := by
  unfold SegmentManager.segmentAt
  rw [h.getElem? hs]

theorem setSegment (t : Segment) : (m.setSegment i t).segments = (segs.set i t).map some := by
  unfold SegmentManager.setSegment
  dsimp only
  rw [h.segments, List.map_set]

theorem length : m.segments.length = segs.length := by
  rw [h.segments, List.length_map]

/-- The newest segment is initialised. -/
theorem newest (s : Segment) (hs : segs.getLast? = some s) : m.segmentAt (segs.length - 1) = .ok s :=
  h.segmentAt (by rwa [← List.getLast?_eq_getElem?])

/-- When no segment has a free block, no block is deleted. -/
theorem chain_eq_nil (he : m.freeSegments = ∅) (hs : segs[i]? = some s) : chain i = [] := by
  have hlen := (h.chained i s hs).length
  have hfull : ¬0 < s.freeBlocks := by
    intro hpos
    have hmem := (h.free i).mpr ⟨s, hs, hpos⟩
    rw [he] at hmem
    exact Finset.notMem_empty i hmem
  unfold Segment.freeBlocks at hfull
  exact List.length_eq_zero_iff.mp (by omega)

end Counts

/-- What one `createBlock` does: a block of a free segment, or the first block of a new one. -/
inductive Allocation (B : BlockSize) (m : SegmentManager) (segs : List Segment) (chain : ℕ → List ℕ)
    (pick : ℕ) : ℕ → ℕ → List Segment → (ℕ → List ℕ) → ByteFile → ManagerHeader → Prop
  | reused {s s' : Segment} {b : ℕ} {l' : List ℕ} (hne : m.freeSegments.Nonempty)
      (hs : segs[m.firstFree pick]? = some s)
      (w : s.Handed (chain (m.firstFree pick)) b s' l') :
      Allocation B m segs chain pick (m.firstFree pick) b (segs.set (m.firstFree pick) s')
        (Function.update chain (m.firstFree pick) l') m.file m.header
  | grown {s' : Segment} {o : ℕ} (he : m.freeSegments = ∅) (hlt : m.nextSize < UInt64.size)
      (ho : m.nextOffset B = .ok o) (w : (Segment.create B o m.nextSize).Handed [] 0 s' []) :
      Allocation B m segs chain pick segs.length 0 (segs ++ [s'])
        (Function.update chain segs.length [])
        (m.file.resize ((o + B.bytes + m.nextSize * B.bytes) % UInt64.size))
        ⟨m.header.numberOfSegments + 1, m.nextSize⟩

/-- `takeBlock` on an initialised segment. -/
theorem takeBlock_eq (hat : m.segmentAt i = .ok s) (hc : s.createBlock B m.file = .ok (b, s')) :
    m.takeBlock B i = .ok (b, m.setSegment i s') := by
  unfold takeBlock
  rw [hat]
  show (s.createBlock B m.file >>= _) = _
  rw [hc]
  rfl

/-- `markFull` on a segment with a free block. -/
theorem markFull_eq (hat : m.segmentAt i = .ok s) (hf : 0 < s.freeBlocks) :
    m.markFull i = .ok { m with
      freeSegments := if s.freeBlocks = 1 then m.freeSegments.erase i else m.freeSegments } := by
  unfold markFull
  rw [hat]
  show (if s.freeBlocks = 0 then _ else _) = _
  rw [if_neg (Nat.ne_of_gt hf)]
  split <;> rfl

/-- After a block of segment `i` is handed out, `markFull` was right about `freeSegments`. -/
theorem free_handed (hfree : ∀ j, j ∈ m.freeSegments ↔ ∃ t, segs[j]? = some t ∧ 0 < t.freeBlocks)
    (hs : segs[i]? = some s) (hcount : s'.freeBlocks + 1 = s.freeBlocks) (j : ℕ) :
    j ∈ (if s.freeBlocks = 1 then m.freeSegments.erase i else m.freeSegments) ↔
      ∃ t, (segs.set i s')[j]? = some t ∧ 0 < t.freeBlocks := by
  have hlt := (List.getElem?_eq_some_iff.mp hs).1
  by_cases hj : j = i
  · subst hj
    rw [List.getElem?_set_self hlt]
    have hmem : j ∈ m.freeSegments := (hfree j).mpr ⟨s, hs, by omega⟩
    constructor
    · intro h
      refine ⟨s', rfl, Nat.pos_of_ne_zero fun h0 => ?_⟩
      rw [if_pos (by omega)] at h
      exact Finset.notMem_erase j _ h
    · rintro ⟨t, ht, hpos⟩
      obtain rfl := Option.some.inj ht
      rw [if_neg (by omega)]
      exact hmem
  · rw [List.getElem?_set_ne (Ne.symm hj), ← hfree j]
    split
    · rw [Finset.mem_erase]
      exact and_iff_right hj
    · exact Iff.rfl

/-- `createBlock` with a free segment. -/
theorem allocate_reused (h : Counts B m segs chain) (hne : m.freeSegments.Nonempty) :
    ∃ i b m' segs' chain', m.allocate B pick = .ok ((i, b), m') ∧ Counts B m' segs' chain' ∧
      Allocation B m segs chain pick i b segs' chain' m'.file m'.header ∧
      m'.growthFactor = m.growthFactor := by
  obtain ⟨s, hs, hfree⟩ := (h.free _).mp (@firstFree_mem _ pick hne)
  have hch := h.chained _ _ hs
  obtain ⟨b, s', l', hcreate, w⟩ := Segment.createBlock_spec hch hfree
  have hsegs : m.segments ≠ [] := by
    intro hnil
    have hget := h.getElem? hs
    rw [hnil] at hget
    exact nomatch hget
  let m₁ : SegmentManager := { m with freeSegments :=
    if s.freeBlocks = 1 then m.freeSegments.erase (m.firstFree pick) else m.freeSegments }
  have htake : m₁.takeBlock B (m.firstFree pick) = .ok (b, m₁.setSegment (m.firstFree pick) s') :=
    takeBlock_eq (h.segmentAt hs) hcreate
  refine ⟨m.firstFree pick, b, m₁.setSegment (m.firstFree pick) s', _, _, ?_,
    ⟨h.toCore.handed hs w, h.setSegment s', free_handed h.free hs (w.freeBlocks hch)⟩,
    .reused hne hs w, rfl⟩
  unfold allocate
  rw [if_neg (not_or.mpr ⟨hsegs, hne.ne_empty⟩)]
  show (m.markFull _ >>= _) = _
  rw [markFull_eq (h.segmentAt hs) hfree]
  show (m₁.takeBlock B _ >>= _) = _
  rw [htake]
  rfl

/-- `createBlock` without one. -/
theorem allocate_grown (h : Counts B m segs chain) (he : m.freeSegments = ∅)
    (hlt : m.nextSize < UInt64.size) :
    ∃ i b m' segs' chain', m.allocate B pick = .ok ((i, b), m') ∧ Counts B m' segs' chain' ∧
      Allocation B m segs chain pick i b segs' chain' m'.file m'.header ∧
      m'.growthFactor = m.growthFactor := by
  obtain ⟨o, ho⟩ := exists_nextOffset h.toCore h.length h.newest
  set new := Segment.create B o m.nextSize with hnew
  set f := m.file.resize ((o + B.bytes + m.nextSize * B.bytes) % UInt64.size) with hf
  have hcore : Core B f ⟨m.header.numberOfSegments + 1, m.nextSize⟩ (segs ++ [new])
      (Function.update chain segs.length []) := by
    refine h.toCore.added hlt o fun i s hs => ?_
    have hch := h.chained i s hs
    rw [h.chain_eq_nil he hs] at hch ⊢
    exact hch.of_nil f
  have hget : (segs ++ [new])[segs.length]? = some new := List.getElem?_concat_length
  have hch := hcore.chained _ _ hget
  rw [Function.update_self] at hch
  have hten : 10 ≤ m.nextSize := le_max_left _ _
  have hnewfree : new.freeBlocks = m.nextSize := rfl
  obtain ⟨b, s', l', hcreate, w⟩ := Segment.createBlock_spec hch (by omega)
  have hcount := w.freeBlocks hch
  let m₁ : SegmentManager := { m with
    header := ⟨m.header.numberOfSegments + 1, m.nextSize⟩
    segments := (m.segments ++ [none]).set segs.length (some new)
    freeSegments := {segs.length}
    file := f }
  have hsegs : m₁.segments = (segs ++ [new]).map some := by
    have hlen : segs.length = (segs.map some).length := (List.length_map some).symm
    show (m.segments ++ [none]).set segs.length (some new) = _
    rw [h.segments, List.map_append, hlen, List.set_append_right _ _ le_rfl, Nat.sub_self]
    rfl
  have hat : m₁.segmentAt segs.length = .ok new := by
    unfold SegmentManager.segmentAt
    rw [hsegs, List.getElem?_map, hget]
    rfl
  have hset : (segs ++ [new]).set segs.length s' = segs ++ [s'] := by
    rw [List.set_append_right _ _ le_rfl, Nat.sub_self]
    rfl
  have htake : m₁.takeBlock B segs.length = .ok (b, m₁.setSegment segs.length s') :=
    takeBlock_eq hat hcreate
  have hrun : m.allocate B pick = .ok ((segs.length, b), m₁.setSegment segs.length s') := by
    unfold allocate
    rw [if_pos (.inr he), addSegment_eq h.toCore h.length ho he, if_pos hlt]
    show (m₁.takeBlock B _ >>= _) = _
    rw [htake]
    rfl
  have hsegs' : (m₁.setSegment segs.length s').segments = (segs ++ [s']).map some := by
    show m₁.segments.set segs.length (some s') = _
    rw [hsegs, ← List.map_set, hset]
  have hfree : ∀ j, j ∈ ({segs.length} : Finset ℕ) ↔
      ∃ t, (segs ++ [s'])[j]? = some t ∧ 0 < t.freeBlocks := by
    intro j
    rw [Finset.mem_singleton]
    constructor
    · rintro rfl
      exact ⟨s', List.getElem?_concat_length, by omega⟩
    · rintro ⟨t, ht, hpos⟩
      rcases Shape.get_concat ht with ⟨hj, -⟩ | ⟨-, ht⟩
      · exact hj
      · have hmem := (h.free j).mpr ⟨t, ht, hpos⟩
        rw [he] at hmem
        exact absurd hmem (Finset.notMem_empty j)
  have hw := hcore.handed hget (by rw [Function.update_self]; exact w)
  rw [hset, Function.update_idem] at hw
  cases w with
  | unused hocc =>
    exact ⟨segs.length, 0, _, _, _, hrun, ⟨hw, hsegs', hfree⟩, .grown he hlt ho (.unused hocc), rfl⟩

/-- `createBlock` succeeds unless the new segment's size is beyond a `size_t`. -/
theorem allocate_spec (h : Counts B m segs chain)
    (hlt : m.freeSegments = ∅ → m.nextSize < UInt64.size) :
    ∃ i b m' segs' chain', m.allocate B pick = .ok ((i, b), m') ∧ Counts B m' segs' chain' ∧
      Allocation B m segs chain pick i b segs' chain' m'.file m'.header ∧
      m'.growthFactor = m.growthFactor := by
  rcases m.freeSegments.eq_empty_or_nonempty with he | hne
  · exact allocate_grown h he (hlt he)
  · exact allocate_reused h hne

/-- What a `createBlock` that returned has done. -/
theorem allocate_cases (h : Counts B m segs chain) {m' : SegmentManager}
    (hr : m.allocate B pick = .ok ((i, b), m')) :
    ∃ segs' chain', Counts B m' segs' chain' ∧
      Allocation B m segs chain pick i b segs' chain' m'.file m'.header ∧
      m'.growthFactor = m.growthFactor := by
  have hlt : m.freeSegments = ∅ → m.nextSize < UInt64.size := by
    intro he
    by_contra hge
    obtain ⟨o, ho⟩ := exists_nextOffset h.toCore h.length h.newest
    have hbad : m.allocate B pick = .error .badConversion := by
      unfold allocate
      rw [if_pos (.inr he), addSegment_eq h.toCore h.length ho he, if_neg hge]
      rfl
    rw [hbad] at hr
    exact nomatch hr
  obtain ⟨i', b', m₁, segs', chain', hr', hi, w, hg⟩ := @allocate_spec B _ _ _ pick h hlt
  obtain ⟨⟨rfl, rfl⟩, rfl⟩ : (i' = i ∧ b' = b) ∧ m₁ = m' := by
    have heq := Except.ok.inj (hr'.symm.trans hr)
    exact ⟨Prod.mk.inj (Prod.mk.inj heq).1, (Prod.mk.inj heq).2⟩
  exact ⟨segs', chain', hi, w, hg⟩

/-- After `createBlock` every segment is where it is meant to be, if a new one ends inside the file. -/
theorem Allocation.inv (h : Inv B m segs chain) (hfit : m.freeSegments = ∅ → m.FitsFile B) {m' : SegmentManager}
    {segs' : List Segment} {chain' : ℕ → List ℕ} (hc : Counts B m' segs' chain')
    (w : Allocation B m segs chain pick i b segs' chain' m'.file m'.header) : Inv B m' segs' chain' := by
  obtain ⟨hcore, hsegs, hfree⟩ := hc
  have hlaid : Laid B B.bytes segs' ∧ m'.file.size = ending B B.bytes segs' ∧ m'.file.size < ByteFile.limit := by
    generalize m'.file = f, m'.header = hd at w
    cases w with
    | reused hne hs w =>
      have hshape := h.toShape.handed hs w
      exact ⟨hshape.laid, hshape.size, hshape.size_lt⟩
    | @grown s' o he hlt ho w =>
      have hend := hfit he o ho
      have hoff := nextOffset_eq h.toShape h.length h.newest
      obtain rfl : ending B B.bytes segs = o := Except.ok.inj (hoff.symm.trans ho)
      have hshape := h.toShape.added hlt hend
      have hwhere : s'.fileOffset = ending B B.bytes segs := w.fileOffset
      have hext : s'.extent B = B.bytes + m.nextSize * B.bytes := by
        unfold Segment.extent
        rw [w.allocatedBlocks]
        rfl
      rw [resize_fits hend]
      refine ⟨h.laid.append hwhere, ?_, hend⟩
      rw [ending_append, hext, ByteFile.size_ftruncate]
      exact Nat.add_assoc ..
  exact ⟨⟨hcore, hlaid.1, hlaid.2.1, hlaid.2.2⟩, hsegs, hfree⟩

/-! ## The other calls -/

/-- `deleteBlock` of a block that is not deleted. -/
theorem deleteBlock_spec (h : Inv B m segs chain) {id : UInt64}
    (hs : segs[getIndexFromID id]? = some s) (hb : getBlockFromID id < s.header.allocatedBlocks)
    (hl : getBlockFromID id ∉ chain (getIndexFromID id)) :
    ∃ m', m.deleteBlock B id = .ok m' ∧
      Inv B m' (segs.set (getIndexFromID id) (s.afterDelete (getBlockFromID id)))
        (Function.update chain (getIndexFromID id) (getBlockFromID id :: chain (getIndexFromID id))) ∧
      ByteFile.Changed (s.start B (getBlockFromID id)) (s.start B (getBlockFromID id) + B.bytes)
        m.file m'.file ∧ m'.header = m.header ∧ m'.growthFactor = m.growthFactor := by
  set i := getIndexFromID id with hi
  set b := getBlockFromID id with hbd
  obtain ⟨f', hf', hsize, hc, hshape⟩ := h.toShape.deleted hs hb hl (getBlockFromID_lt id)
  have hmark : m.markFree i = .ok { m with freeSegments := insert i m.freeSegments } := by
    unfold markFree
    rw [h.getElem? hs]
  have hlt := (List.getElem?_eq_some_iff.mp hs).1
  refine ⟨{ m.setSegment i (s.afterDelete b) with file := f', freeSegments := insert i m.freeSegments },
    ?_, ⟨hshape, h.setSegment _, ?_⟩, hc, rfl, rfl⟩
  · unfold SegmentManager.deleteBlock
    rw [← hi, ← hbd, hmark]
    show (SegmentManager.segmentAt _ _ >>= _) = _
    rw [show SegmentManager.segmentAt { m with freeSegments := insert i m.freeSegments } i = .ok s from
      h.segmentAt hs]
    show (s.deleteBlock B m.file b >>= _) = _
    rw [hf']
    rfl
  · intro j
    rw [Finset.mem_insert]
    by_cases hj : j = i
    · subst hj
      rw [List.getElem?_set_self hlt]
      exact iff_of_true (.inl rfl) ⟨_, rfl, Nat.succ_pos _⟩
    · rw [List.getElem?_set_ne (Ne.symm hj), ← h.free j]
      exact or_iff_right hj

/-- `writeBlock` into a block that is not deleted. -/
theorem writeBlock_spec (h : Inv B m segs chain) {id : UInt64} (data : Block B)
    (hs : segs[getIndexFromID id]? = some s) (hb : getBlockFromID id < s.header.allocatedBlocks)
    (hl : getBlockFromID id ∉ chain (getIndexFromID id)) :
    ∃ m', m.writeBlock B id data = .ok m' ∧ Inv B m' segs chain ∧
      ByteFile.Changed (s.start B (getBlockFromID id)) (s.start B (getBlockFromID id) + B.bytes)
        m.file m'.file ∧ m'.readBlock B id = .ok data ∧ m'.header = m.header ∧
      m'.growthFactor = m.growthFactor := by
  have hc := Segment.changed_written m.file s (getBlockFromID id) data
  have hin := h.inside hs
  refine ⟨{ m with file := m.file.pwrite data.val (s.start B (getBlockFromID id)) }, ?_,
    ⟨h.toShape.write hs hb hl hc (Segment.size_written hin hb data), h.segments, h.free⟩, hc, ?_, rfl, rfl⟩
  · unfold SegmentManager.writeBlock
    rw [h.getElem? hs]
    show (s.writeBlock B m.file (getBlockFromID id) data >>= _) = _
    rw [Segment.writeBlock_eq hin hb]
    rfl
  · unfold SegmentManager.readBlock
    dsimp only
    rw [h.getElem? hs]
    exact Segment.readBlock_written hin hb data

/-- `readBlock` of a block that exists. -/
theorem readBlock_eq (h : Counts B m segs chain) {id : UInt64}
    (hs : segs[getIndexFromID id]? = some s) :
    m.readBlock B id = s.readBlock B m.file (getBlockFromID id) := by
  unfold SegmentManager.readBlock
  rw [h.getElem? hs]

end BEpsilon.File
