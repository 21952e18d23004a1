import BEpsilon.File.Client
import Mathlib.Algebra.BigOperators.Group.List.Basic

/-!
# BEpsilon.File.CreateOnly — runs that go on creating

Every run can be continued by `createBlock` until no segment has a free block, and then by the one that
adds a segment.  So the number of segments has no end.
-/

namespace BEpsilon.File

open SegmentManager

variable {B : BlockSize} {g : ℚ≥0} {c : Client B} {segs segs' : List Segment} {chain chain' : ℕ → List ℕ}
  {i b pick : ℕ} {s s' : Segment} {m : SegmentManager} {f' : ByteFile} {hd' : ManagerHeader}

/-- The free blocks of all segments. -/
def totalFree (segs : List Segment) : ℕ := (segs.map Segment.freeBlocks).sum

theorem totalFree_set (hs : segs[i]? = some s) (hcount : s'.freeBlocks + 1 = s.freeBlocks) :
    totalFree (segs.set i s') + 1 = totalFree segs := by
  unfold totalFree
  induction segs generalizing i with
  | nil => exact nomatch hs
  | cons t l ih =>
    cases i with
    | zero =>
      obtain rfl : t = s := Option.some.inj hs
      simp only [List.set_cons_zero, List.map_cons, List.sum_cons]
      omega
    | succ i =>
      have h := ih hs
      simp only [List.set_cons_succ, List.map_cons, List.sum_cons]
      omega

theorem Allocation.of_nonempty (h : Counts B m segs chain)
    (w : Allocation B m segs chain pick i b segs' chain' f' hd') (hne : m.freeSegments.Nonempty) :
    segs'.length = segs.length ∧ totalFree segs' + 1 = totalFree segs ∧ hd' = m.header := by
  cases w with
  | reused _ hs w =>
    exact ⟨List.length_set, totalFree_set hs (w.freeBlocks (h.chained _ _ hs)), rfl⟩
  | grown he => exact absurd he hne.ne_empty

theorem Allocation.of_empty (w : Allocation B m segs chain pick i b segs' chain' f' hd')
    (he : m.freeSegments = ∅) : i = segs.length ∧ b = 0 ∧ segs'.length = segs.length + 1 ∧
      hd'.lastAllocatedBlocks = m.nextSize := by
  cases w with
  | reused hne => exact absurd he hne.ne_empty
  | grown _ hlt _ w =>
    refine ⟨rfl, rfl, ?_, rfl⟩
    rw [List.length_append, List.length_singleton]

/-- The states `R` of some kind of run can be continued by `createBlock`, as long as `L` holds where it adds a
segment. -/
def Continues (B : BlockSize) (L : SegmentManager → Prop) (R : SegmentManager → Finset (ℕ × ℕ) → Prop) : Prop :=
  ∀ (m m' : SegmentManager) (blocks : Finset (ℕ × ℕ)) (pick : ℕ) (p : ℕ × ℕ), R m blocks →
    (m.freeSegments = ∅ → L m) → m.allocate B pick = .ok (p, m') → R m' (insert p blocks)

/-- A run that has handed out the first block of every segment. -/
structure Growing (B : BlockSize) (g : ℚ≥0) (R : SegmentManager → Finset (ℕ × ℕ) → Prop)
    (m : SegmentManager) (blocks : Finset (ℕ × ℕ)) (segs : List Segment) (chain : ℕ → List ℕ) : Prop where
  run : R m blocks
  counts : Counts B m segs chain
  factor : m.growthFactor = g
  firsts : ∀ i < segs.length, (i, 0) ∈ blocks

section

variable {L : SegmentManager → Prop} {R : SegmentManager → Finset (ℕ × ℕ) → Prop} {blocks : Finset (ℕ × ℕ)}

theorem Growing.fresh (hr : construct B g none = .ok m) (hR : R m ∅) :
    Growing B g R m ∅ [] fun _ => [] := by
  have hcounts := (Inv.fresh hr).toCounts
  obtain ⟨-, rfl⟩ := construct_none hr
  exact ⟨hR, hcounts, rfl, fun i hi => absurd hi (Nat.not_lt_zero i)⟩

variable (hR : Continues B L R) (h : Growing B g R m blocks segs chain)
include hR h

/-- One more block of the segments there are. -/
theorem Growing.reuse (hne : m.freeSegments.Nonempty) :
    ∃ m' blocks' segs' chain', Growing B g R m' blocks' segs' chain' ∧ segs'.length = segs.length ∧
      totalFree segs' + 1 = totalFree segs ∧ m'.header = m.header := by
  obtain ⟨i, b, m', segs', chain', hr, hcounts, w, hg⟩ := @allocate_reused B _ _ _ 0 h.counts hne
  obtain ⟨hlen, htotal, hhead⟩ := w.of_nonempty h.counts hne
  have hrun := hR m m' blocks 0 (i, b) h.run (fun he => absurd he hne.ne_empty) hr
  refine ⟨m', insert (i, b) blocks, segs', chain', ⟨hrun, hcounts, hg.trans h.factor, fun j hj => ?_⟩,
    hlen, htotal, hhead⟩
  rw [hlen] at hj
  exact Finset.mem_insert_of_mem (h.firsts j hj)

/-- The segments can be filled up. -/
theorem Growing.fill : ∃ m' blocks' segs' chain', Growing B g R m' blocks' segs' chain' ∧
    segs'.length = segs.length ∧ m'.header = m.header ∧ m'.freeSegments = ∅ := by
  induction hn : totalFree segs using Nat.strong_induction_on generalizing m blocks segs chain with
  | _ n ih =>
    rcases m.freeSegments.eq_empty_or_nonempty with he | hne
    · exact ⟨m, blocks, segs, chain, h, rfl, rfl, he⟩
    · obtain ⟨m₁, blocks₁, segs₁, chain₁, h₁, hlen₁, htotal, hhead₁⟩ := h.reuse hR hne
      obtain ⟨m₂, blocks₂, segs₂, chain₂, h₂, hlen₂, hhead₂, he⟩ := ih _ (by omega) h₁ rfl
      exact ⟨m₂, blocks₂, segs₂, chain₂, h₂, hlen₂.trans hlen₁, hhead₂.trans hhead₁, he⟩

/-- And then a segment is added. -/
theorem Growing.grow (he : m.freeSegments = ∅) (hL : L m)
    (hlt : m.nextSize < UInt64.size) :
    ∃ m' blocks' segs' chain', Growing B g R m' blocks' segs' chain' ∧
      segs'.length = segs.length + 1 ∧ m'.header.lastAllocatedBlocks = m.nextSize := by
  obtain ⟨i, b, m', segs', chain', hr, hcounts, w, hg⟩ := @allocate_grown B _ _ _ 0 h.counts he hlt
  obtain ⟨rfl, rfl, hlen, hlast⟩ := w.of_empty he
  have hrun := hR m m' blocks 0 _ h.run (fun _ => hL) hr
  refine ⟨m', _, segs', chain', ⟨hrun, hcounts, hg.trans h.factor, fun j hj => ?_⟩, hlen, hlast⟩
  rcases Nat.lt_succ_iff_lt_or_eq.mp (hlen ▸ hj) with hj | rfl
  · exact Finset.mem_insert_of_mem (h.firsts j hj)
  · exact Finset.mem_insert_self _ _

end

/-! ## Filling one segment -/

/-- Only segment `i` has free blocks, and it has handed out `k` of its `n`, deleting none. -/
structure Filling (B : BlockSize) (R : SegmentManager → Finset (ℕ × ℕ) → Prop) (m : SegmentManager)
    (blocks : Finset (ℕ × ℕ)) (i k n : ℕ) : Prop where
  run : R m blocks
  first : (i, 0) ∈ blocks
  free : m.freeSegments = {i}
  segment : ∃ segs chain s, Counts B m segs chain ∧ segs[i]? = some s ∧ chain i = [] ∧
    s.header.occupiedBlocks = k ∧ s.header.allocatedBlocks = n

theorem Allocation.of_filling (w : Allocation B m segs chain pick i b segs' chain' f' hd') {j : ℕ}
    (hfree : m.freeSegments = {j}) (hs : segs[j]? = some s) (hch : chain j = []) :
    i = j ∧ b = s.header.occupiedBlocks ∧ chain' j = [] ∧
      ∃ s', segs' = segs.set j s' ∧ s'.header.occupiedBlocks = s.header.occupiedBlocks + 1 ∧
        s'.header.allocatedBlocks = s.header.allocatedBlocks := by
  have hne : m.freeSegments.Nonempty := by
    rw [hfree]
    exact Finset.singleton_nonempty j
  have hfirst : m.firstFree pick = j := by
    have hmem := @firstFree_mem m pick hne
    rw [hfree] at hmem
    exact Finset.mem_singleton.mp hmem
  cases w with
  | @reused t s' b l' _ ht w =>
    rw [hfirst] at ht w ⊢
    obtain rfl : s = t := Option.some.inj (hs.symm.trans ht)
    rw [hch] at w
    cases w with
    | unused ho => exact ⟨rfl, rfl, Function.update_self .., _, rfl, rfl, rfl⟩
  | grown he => exact absurd he hne.ne_empty

/-- `freeSegments` when segment `i` alone has free blocks left. -/
theorem free_singleton (h : Counts B m segs chain) (hs : segs[i]? = some s) (hpos : 0 < s.freeBlocks)
    (hother : ∀ (j : ℕ) (t : Segment), j ≠ i → segs[j]? = some t → ¬0 < t.freeBlocks) :
    m.freeSegments = {i} := by
  ext j
  rw [h.free, Finset.mem_singleton]
  constructor
  · rintro ⟨t, ht, ht'⟩
    by_contra hj
    exact hother j t hj ht ht'
  · rintro rfl
    exact ⟨s, hs, hpos⟩

section

variable {L : SegmentManager → Prop} {R : SegmentManager → Finset (ℕ × ℕ) → Prop} {blocks : Finset (ℕ × ℕ)}

/-- One block further. -/
theorem Filling.step (hR : Continues B L R) {k n : ℕ} (h : Filling B R m blocks i k n) (hk : k + 1 < n) :
    ∃ m', Filling B R m' (insert (i, k) blocks) i (k + 1) n := by
  obtain ⟨segs, chain, s, hcounts, hs, hch, hocc, halloc⟩ := h.segment
  have hne : m.freeSegments.Nonempty := by
    rw [h.free]
    exact Finset.singleton_nonempty i
  obtain ⟨i', b, m', segs', chain', hr, hcounts', w, -⟩ := @allocate_reused B _ _ _ 0 hcounts hne
  have hrun := hR m m' blocks 0 _ h.run (fun he => absurd he hne.ne_empty) hr
  obtain ⟨rfl, rfl, hch', s', rfl, hocc', halloc'⟩ := w.of_filling h.free hs hch
  rw [hocc] at hrun hocc'
  have hget : (segs.set i' s')[i']? = some s' :=
    List.getElem?_set_self (List.getElem?_eq_some_iff.mp hs).1
  refine ⟨m', hrun, Finset.mem_insert_of_mem h.first, free_singleton hcounts' hget ?_ fun j t hj ht hpos => ?_,
    _, chain', s', hcounts', hget, hch', hocc', halloc'.trans halloc⟩
  · unfold Segment.freeBlocks
    omega
  · have hmem := (hcounts.free j).mpr ⟨t, ((Shape.get_set ht).resolve_left fun h => hj h.1).2, hpos⟩
    rw [h.free, Finset.mem_singleton] at hmem
    exact hj hmem

/-- Any number of blocks further. -/
theorem Filling.steps (hR : Continues B L R) {n : ℕ} (d : ℕ) {k : ℕ} (h : Filling B R m blocks i k n)
    (hk : k + d < n) : ∃ m' blocks', Filling B R m' blocks' i (k + d) n := by
  induction d with
  | zero => exact ⟨m, blocks, h⟩
  | succ d ih =>
    obtain ⟨m₁, blocks₁, h₁⟩ := ih (by omega)
    obtain ⟨m₂, h₂⟩ := h₁.step hR hk
    exact ⟨m₂, _, h₂⟩

end

/-- With growth factor 1 every segment has ten blocks, and there can be as many as one likes. -/
theorem exists_growing {L : ℕ} {R : SegmentManager → Finset (ℕ × ℕ) → Prop}
    (hR : Continues B (fun m => m.segments.length + 1 < L) R) (hr : construct B 1 none = .ok m) (hstart : R m ∅)
    (k : ℕ) (hk : k < L) :
    ∃ m blocks segs chain, Growing B 1 R m blocks segs chain ∧ segs.length = k ∧
      m.header.lastAllocatedBlocks ≤ 10 := by
  induction k with
  | zero =>
    have h := Growing.fresh hr hstart
    have hlast : m.header.lastAllocatedBlocks = 0 := h.counts.last
    exact ⟨m, _, _, _, h, rfl, hlast ▸ Nat.zero_le _⟩
  | succ k ih =>
    obtain ⟨m, blocks, segs, chain, h, hlen, hlast⟩ := ih (by omega)
    obtain ⟨m₁, blocks₁, segs₁, chain₁, h₁, hlen₁, hhead, he⟩ := h.fill hR
    have hsize : m₁.nextSize = 10 := by
      have hnum : (1 : ℚ≥0).num = 1 := rfl
      have hden : (1 : ℚ≥0).den = 1 := rfl
      unfold nextSize
      rw [h₁.factor, hhead, hnum, hden, Nat.mul_one, Nat.div_one]
      exact max_eq_left hlast
    obtain ⟨m₂, blocks₂, segs₂, chain₂, h₂, hlen₂, hlast₂⟩ :=
      h₁.grow hR he (by rw [h₁.counts.length]; omega) (by rw [hsize]; decide)
    exact ⟨m₂, blocks₂, segs₂, chain₂, h₂, by rw [hlen₂, hlen₁, hlen], by rw [hlast₂, hsize]⟩

end BEpsilon.File
