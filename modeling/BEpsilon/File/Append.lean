import BEpsilon.File.Allocator
import BEpsilon.File.Reopen
import Mathlib.Data.Prod.Lex
import Mathlib.Order.Monotone.Basic

/-!
# BEpsilon.File.Append — a manager whose user deletes nothing

The page buffer never deletes a block.  Then the growth factor alone says which block `createBlock` hands out
next: `Cursor` counts along with the manager, and `blockID g n` is the id of block number `n`.  `Cursor.Fits` says
that the segments end inside the file and below the limits of the ids.  `Stored` is the invariant of such a
manager: block `n` holds what was last written to it, zeros if nothing was.  It outlives `flush` and the constructor.
-/

namespace BEpsilon.File

open SegmentManager

/-! ## The blocks in the order in which they are handed out -/

/-- How far a manager has got: its segments, the size of the last one, how many blocks of it are in use, and the
length of the file in blocks. -/
structure Cursor where
  segments : ℕ
  size : ℕ
  used : ℕ
  extent : ℕ

/-- The number of blocks of the segment behind the last one. -/
def Cursor.nextSize (g : ℚ≥0) (c : Cursor) : ℕ := max 10 (c.size * g.num / g.den)

/-- One block further: in the last segment if it has one left, else the first of a new segment. -/
def Cursor.next (g : ℚ≥0) (c : Cursor) : Cursor :=
  if c.used < c.size then { c with used := c.used + 1 }
  else ⟨c.segments + 1, c.nextSize g, 1, c.extent + 1 + c.nextSize g⟩

/-- After `n` blocks. -/
def cursor (g : ℚ≥0) : ℕ → Cursor
  | 0 => ⟨0, 0, 0, 1⟩
  | n + 1 => (cursor g n).next g

/-- Block number `n`: its segment and its place there. -/
def nthBlock (g : ℚ≥0) (n : ℕ) : ℕ × ℕ := ((cursor g (n + 1)).segments - 1, (cursor g (n + 1)).used - 1)

/-- The segments so far stay below the limits of the ids and inside the file. -/
def Cursor.Fits (B : BlockSize) (c : Cursor) : Prop :=
  c.segments < segmentLimit ∧ c.size < blockLimit ∧ c.extent * B.bytes < ByteFile.limit

instance cursorFits_decidable (B : BlockSize) (c : Cursor) : Decidable (c.Fits B) :=
  inferInstanceAs (Decidable (_ ∧ _ ∧ _))

/-- The block fits into the two fields of an id. -/
def FitsID (p : ℕ × ℕ) : Prop := p.1 < segmentLimit ∧ p.2 < blockLimit

instance fitsID_decidable (p : ℕ × ℕ) : Decidable (FitsID p) := inferInstanceAs (Decidable (_ ∧ _))

/-- The id of block number `n`, as long as the blocks fit into ids; and some other number behind that. -/
def blockID (g : ℚ≥0) (n : ℕ) : ℕ :=
  if FitsID (nthBlock g n) then (idOf (nthBlock g n)).toNat else UInt64.size + n

section Cursor

variable {g : ℚ≥0} {n : ℕ}

theorem cursor_succ_pos (g : ℚ≥0) (n : ℕ) : 0 < (cursor g (n + 1)).segments ∧ 0 < (cursor g (n + 1)).used := by
  induction n with
  | zero => exact ⟨Nat.one_pos, Nat.one_pos⟩
  | succ n ih =>
    rw [cursor, Cursor.next]
    split
    · exact ⟨ih.1, Nat.succ_pos _⟩
    · exact ⟨Nat.succ_pos _, Nat.one_pos⟩

/-- The blocks are handed out in the order of their segments and of their places there. -/
theorem cursor_strictMono (g : ℚ≥0) : StrictMono fun n => toLex ((cursor g n).segments, (cursor g n).used) := by
  refine strictMono_nat_of_lt_succ fun n => ?_
  rw [Prod.Lex.toLex_lt_toLex, cursor, Cursor.next]
  split
  · exact .inr ⟨rfl, Nat.lt_succ_self _⟩
  · exact .inl (Nat.lt_succ_self _)

theorem nthBlock_inj {i j : ℕ} (h : nthBlock g i = nthBlock g j) : i = j := by
  obtain ⟨hseg, hused⟩ := Prod.mk.inj h
  have hi := cursor_succ_pos g i
  have hj := cursor_succ_pos g j
  have hsegments : (cursor g (i + 1)).segments = (cursor g (j + 1)).segments := by omega
  have husedEq : (cursor g (i + 1)).used = (cursor g (j + 1)).used := by omega
  have hkey : i + 1 = j + 1 := (cursor_strictMono g).injective (by
    show toLex _ = toLex _
    rw [hsegments, husedEq])
  exact Nat.succ.inj hkey

theorem FitsID.index {p : ℕ × ℕ} (h : FitsID p) : getIndexFromID (idOf p) = p.1 := index_packID_of_lt h.1 h.2

theorem FitsID.block {p : ℕ × ℕ} (h : FitsID p) : getBlockFromID (idOf p) = p.2 := block_packID_of_lt h.1 h.2

theorem blockID_of_fits (h : FitsID (nthBlock g n)) : UInt64.ofNat (blockID g n) = idOf (nthBlock g n) := by
  rw [blockID, if_pos h, UInt64.ofNat_toNat]

theorem blockID_inj {i j : ℕ} (h : blockID g i = blockID g j) : i = j := by
  have hlt : ∀ p, (idOf p).toNat < UInt64.size := fun p => (idOf p).toNat_lt
  unfold blockID at h
  split at h <;> split at h
  next hi hj =>
    have hid := UInt64.toNat_inj.mp h
    refine nthBlock_inj (g := g) (Prod.ext ?_ ?_)
    · rw [← hi.index, hid, hj.index]
    · rw [← hi.block, hid, hj.block]
  next => exact absurd h (by have := hlt (nthBlock g i); omega)
  next => exact absurd h (by have := hlt (nthBlock g j); omega)
  next => omega

end Cursor

/-! ## What the blocks hold -/

/-- A block of zeros. -/
def zeroBlock (B : BlockSize) : Block B := ⟨List.replicate B.bytes 0, List.length_replicate⟩

variable {B : BlockSize} {g : ℚ≥0} {m : SegmentManager} {n k : ℕ} {segs : List Segment}
  {chain : ℕ → List ℕ} {blocks : ℕ → Block B} {s t : Segment} {i b : ℕ}

/-- What was never written reads as zeros. -/
theorem pread_zero {f : ByteFile} {count offset : ℕ} (hr : offset + count ≤ f.size)
    (hz : ∀ j, offset ≤ j → j < offset + count → f.bytes j = 0) :
    f.pread count offset = List.replicate count 0 := by
  refine List.ext_getElem ?_ fun i h₁ h₂ => ?_
  · rw [ByteFile.length_pread hr, List.length_replicate]
  · rw [ByteFile.length_pread hr] at h₁
    simp only [ByteFile.pread, List.getElem_map, List.getElem_range, List.getElem_replicate]
    exact hz _ (by omega) (by omega)

theorem Segment.readBlock_zero {f : ByteFile} (hin : s.Inside B f) (hb : b < s.header.allocatedBlocks)
    (hz : ∀ j, s.start B b ≤ j → f.bytes j = 0) : s.readBlock B f b = .ok (zeroBlock B) := by
  have hread : f.pread B.bytes (s.blockAt B b) = List.replicate B.bytes 0 := by
    rw [hin.blockAt_eq hb]
    exact pread_zero (hin.start_le hb) fun j h₁ _ => hz j h₁
  unfold Segment.readBlock
  rw [dif_pos (by rw [hread, List.length_replicate])]
  exact congrArg _ (Subtype.ext hread)

/-- A manager from which `n` blocks were created and none deleted; block number `k` holds
`blocks (blockID g k)`. -/
structure StoredIn (B : BlockSize) (g : ℚ≥0) (m : SegmentManager) (n : ℕ) (blocks : ℕ → Block B)
    (segs : List Segment) (chain : ℕ → List ℕ) : Prop where
  inv : Inv B m segs chain
  factor : m.growthFactor = g
  few : segs.length < segmentLimit
  sizes : ∀ (i : ℕ) (s : Segment), segs[i]? = some s → s.header.allocatedBlocks < blockLimit
  chains : ∀ (i : ℕ) (s : Segment), segs[i]? = some s → chain i = []
  segments : segs.length = (cursor g n).segments
  last : m.header.lastAllocatedBlocks = (cursor g n).size
  ends : ending B B.bytes segs = (cursor g n).extent * B.bytes
  used : ∀ (i : ℕ) (s : Segment), segs[i]? = some s → segs.length = i + 1 →
    s.header.occupiedBlocks = (cursor g n).used
  full : ∀ (i : ℕ) (s : Segment), segs[i]? = some s → i + 1 < segs.length →
    s.header.occupiedBlocks = s.header.allocatedBlocks
  held : ∀ k < n, ∃ s, segs[(nthBlock g k).1]? = some s ∧ (nthBlock g k).2 < s.header.occupiedBlocks ∧
    s.readBlock B m.file (nthBlock g k).2 = .ok (blocks (blockID g k))
  blank : ∀ (i : ℕ) (s : Segment), segs[i]? = some s → ∀ b, s.header.occupiedBlocks ≤ b →
    b < s.header.allocatedBlocks → s.readBlock B m.file b = .ok (zeroBlock B)
  unborn : ∀ k, n ≤ k → blocks (blockID g k) = zeroBlock B

namespace StoredIn

theorem fits (h : StoredIn B g m n blocks segs chain) (hk : k < n) : FitsID (nthBlock g k) := by
  obtain ⟨s, hs, hb, -⟩ := h.held k hk
  have hocc := (h.inv.chained _ s hs).occupied_le
  have hsize := h.sizes _ s hs
  have hlt := (List.getElem?_eq_some_iff.mp hs).1
  have hfew := h.few
  exact ⟨by omega, by omega⟩

/-- The segment that block number `k` is in. -/
theorem find (h : StoredIn B g m n blocks segs chain) (hk : k < n) :
    ∃ s, segs[getIndexFromID (idOf (nthBlock g k))]? = some s ∧
      getBlockFromID (idOf (nthBlock g k)) < s.header.allocatedBlocks ∧
      s.readBlock B m.file (getBlockFromID (idOf (nthBlock g k))) = .ok (blocks (blockID g k)) := by
  obtain ⟨s, hs, hb, hread⟩ := h.held k hk
  rw [(h.fits hk).index, (h.fits hk).block]
  exact ⟨s, hs, lt_of_lt_of_le hb (h.inv.chained _ s hs).occupied_le, hread⟩

theorem read (h : StoredIn B g m n blocks segs chain) (hk : k < n) :
    m.readBlock B (UInt64.ofNat (blockID g k)) = .ok (blocks (blockID g k)) := by
  obtain ⟨s, hs, -, hread⟩ := h.find hk
  rw [blockID_of_fits (h.fits hk), readBlock_eq h.inv.toCounts hs, hread]

/-- A block reads the same after a write to another one. -/
theorem readBlock_other (h : StoredIn B g m n blocks segs chain) {f : ByteFile} {j a : ℕ}
    (hc : ByteFile.Changed (t.start B a) (t.start B a + B.bytes) m.file f) (hs : segs[i]? = some s)
    (hb : b < s.header.allocatedBlocks) (ht : segs[j]? = some t) (ha : a < t.header.allocatedBlocks)
    (hne : (i, b) ≠ (j, a)) : s.readBlock B f b = s.readBlock B m.file b :=
  Segment.readBlock_frame (h.inv.inside hs) hb hc (h.inv.laid.blocks_disjoint hs ht hb ha hne)

/-- `writeBlock` -/
theorem write (h : StoredIn B g m n blocks segs chain) (hk : k < n) (data : Block B) :
    ∃ m', m.writeBlock B (UInt64.ofNat (blockID g k)) data = .ok m' ∧
      StoredIn B g m' n (Function.update blocks (blockID g k) data) segs chain := by
  obtain ⟨t, ht, ha, -⟩ := h.find hk
  have hnil := h.chains _ t ht
  obtain ⟨m', hr, hinv, hc, hread, hhead, hfac⟩ := writeBlock_spec h.inv data ht ha (by simp [hnil])
  rw [readBlock_eq hinv.toCounts ht] at hread
  have hother : ∀ k', k' ≠ k → blockID g k' ≠ blockID g k := fun k' hne e => hne (blockID_inj e)
  rw [(h.fits hk).index] at ht
  rw [(h.fits hk).block] at ha hc hread
  rw [blockID_of_fits (h.fits hk)]
  refine ⟨m', hr, hinv, hfac.trans h.factor, h.few, h.sizes, h.chains, h.segments, by rw [hhead]; exact h.last,
    h.ends, h.used, h.full, fun k' hk' => ?_, fun i s hs b hb hb' => ?_, fun k' hk' => ?_⟩
  · obtain ⟨s, hs, hb, hold⟩ := h.held k' hk'
    refine ⟨s, hs, hb, ?_⟩
    by_cases hkk : k' = k
    · subst hkk
      obtain rfl := Option.some.inj (ht.symm.trans hs)
      rw [hread, Function.update_self]
    · have hb' := lt_of_lt_of_le hb (h.inv.chained _ s hs).occupied_le
      have hne : nthBlock g k' ≠ nthBlock g k := fun e => hkk (nthBlock_inj e)
      rw [h.readBlock_other hc hs hb' ht ha hne, hold, Function.update_of_ne (hother k' hkk)]
  · obtain ⟨t', ht', hused, -⟩ := h.held k hk
    obtain rfl := Option.some.inj (ht.symm.trans ht')
    rw [h.readBlock_other hc hs hb' ht ha, h.blank i s hs b hb hb']
    intro e
    obtain ⟨rfl, rfl⟩ := Prod.mk.inj e
    obtain rfl := Option.some.inj (ht.symm.trans hs)
    omega
  · rw [Function.update_of_ne (hother k' (by omega)), h.unborn k' hk']

/-- Only the last segment can have blocks left. -/
theorem freeSegments_eq (h : StoredIn B g m n blocks segs chain) :
    m.freeSegments = if (cursor g n).used < (cursor g n).size then {segs.length - 1} else ∅ := by
  have hfree : ∀ (i : ℕ) (s : Segment), segs[i]? = some s →
      s.freeBlocks = s.header.allocatedBlocks - s.header.occupiedBlocks := by
    intro i s hs
    have hdel := (h.inv.chained i s hs).length
    rw [h.chains i s hs, List.length_nil] at hdel
    rw [Segment.freeBlocks, ← hdel, Nat.add_zero]
  have hlast : ∀ (i : ℕ) (s : Segment), segs[i]? = some s → 0 < s.freeBlocks →
      segs.length = i + 1 ∧ (cursor g n).used < (cursor g n).size := by
    intro i s hs hpos
    have hlt := (List.getElem?_eq_some_iff.mp hs).1
    have hlen : segs.length = i + 1 := by
      by_contra hne
      have hfull := h.full i s hs (by omega)
      rw [hfree i s hs] at hpos
      omega
    have hsize := last_eq h.inv.toCounts hs hlen
    have hused := h.used i s hs hlen
    rw [hfree i s hs] at hpos
    rw [h.last] at hsize
    omega
  ext i
  rw [h.inv.free]
  split
  next hroom =>
    rw [Finset.mem_singleton]
    constructor
    · rintro ⟨s, hs, hpos⟩
      have := (hlast i s hs hpos).1
      omega
    · rintro rfl
      have hne : segs ≠ [] := by
        rintro rfl
        have h0 := h.inv.last
        rw [h.last] at h0
        simp only [List.getLast?_nil, Option.map_none, Option.getD_none] at h0
        omega
      have hlt : segs.length - 1 < segs.length := by
        have := List.length_pos_of_ne_nil hne
        omega
      have hs := List.getElem?_eq_getElem hlt
      have hsize := last_eq h.inv.toCounts hs (by omega)
      have hused := h.used _ _ hs (by omega)
      rw [h.last] at hsize
      refine ⟨_, hs, ?_⟩
      rw [hfree _ _ hs]
      omega
  next hroom =>
    refine iff_of_false ?_ (Finset.notMem_empty i)
    rintro ⟨s, hs, hpos⟩
    exact hroom (hlast i s hs hpos).2

/-- `createBlock` in the last segment. -/
theorem create_reused (h : StoredIn B g m n blocks segs chain) (pick : ℕ)
    (hroom : (cursor g n).used < (cursor g n).size) :
    FitsID (nthBlock g n) ∧ ∃ m' segs' chain', m.allocate B pick = .ok (nthBlock g n, m') ∧
      StoredIn B g m' (n + 1) blocks segs' chain' := by
  have hfree := h.freeSegments_eq
  rw [if_pos hroom] at hfree
  have hnext : cursor g (n + 1) = { cursor g n with used := (cursor g n).used + 1 } := if_pos hroom
  have hne : m.freeSegments.Nonempty := hfree ▸ Finset.singleton_nonempty _
  have hfirst : m.firstFree pick = segs.length - 1 := by
    have hmem := @firstFree_mem m pick hne
    rw [hfree] at hmem
    exact Finset.mem_singleton.mp hmem
  obtain ⟨i, b, m', segs', chain', hr, hcounts, w, hfac⟩ := @allocate_reused B _ _ _ pick h.inv.toCounts hne
  have hinv' := w.inv h.inv (fun he => absurd he hne.ne_empty) hcounts
  generalize hf : m'.file = f', hh : m'.header = hd' at w
  cases w with
  | grown he => exact absurd he hne.ne_empty
  | @reused s s' b l' _ hs w =>
    rw [hfirst] at hr hinv' hs w
    have hlt := (List.getElem?_eq_some_iff.mp hs).1
    have hlen : segs.length = segs.length - 1 + 1 := by omega
    have hused := h.used _ s hs hlen
    have hsize := last_eq h.inv.toCounts hs hlen
    rw [h.last] at hsize
    rw [h.chains _ s hs] at w
    cases w with
    | unused ho =>
      have hblock : nthBlock g n = (segs.length - 1, s.header.occupiedBlocks) := by
        rw [nthBlock, hnext, h.segments, hused]
        rfl
      have hself := List.getElem?_set_self (a := { s with header := { s.header with
        occupiedBlocks := s.header.occupiedBlocks + 1 } }) hlt
      have hsizes := h.sizes _ s hs
      have hfew := h.few
      refine ⟨hblock ▸ ⟨by omega, by omega⟩, m', _, _, hblock ▸ hr, hinv', hfac.trans h.factor,
        by rw [List.length_set]; exact hfew, fun i t ht => ?_, fun i t ht => ?_,
        by rw [List.length_set, h.segments, hnext], by rw [hh, h.last, hnext], ?_, fun i t ht hi => ?_,
        fun i t ht hi => ?_, fun k hk => ?_, fun i t ht a ha ha' => ?_, fun k hk => h.unborn k (by omega)⟩
      · rcases Shape.get_set ht with ⟨rfl, rfl⟩ | ⟨-, ht⟩
        · exact hsizes
        · exact h.sizes i t ht
      · rcases Shape.get_set ht with ⟨rfl, rfl⟩ | ⟨hi, ht⟩
        · rw [Function.update_self]
        · rw [Function.update_of_ne hi]
          exact h.chains i t ht
      · refine (ending_set hs ?_).trans ?_
        · rfl
        · rw [h.ends, hnext]
      · rw [List.length_set] at hi
        rcases Shape.get_set ht with ⟨rfl, rfl⟩ | ⟨hne', ht⟩
        · rw [hnext]
          exact congrArg (· + 1) hused
        · omega
      · rw [List.length_set] at hi
        rcases Shape.get_set ht with ⟨rfl, rfl⟩ | ⟨-, ht⟩
        · omega
        · exact h.full i t ht hi
      · rw [hf]
        rcases Nat.lt_succ_iff_lt_or_eq.mp hk with hk | rfl
        · obtain ⟨t, ht, hb, hread⟩ := h.held k hk
          by_cases hi : (nthBlock g k).1 = segs.length - 1
          · rw [hi] at ht ⊢
            obtain rfl := Option.some.inj (hs.symm.trans ht)
            exact ⟨_, hself, Nat.lt_succ_of_lt hb, hread⟩
          · exact ⟨t, by rw [List.getElem?_set_ne (Ne.symm hi)]; exact ht, hb, hread⟩
        · rw [hblock, h.unborn k le_rfl]
          exact ⟨_, hself, Nat.lt_succ_self _, h.blank _ s hs _ le_rfl ho⟩
      · rw [hf]
        rcases Shape.get_set ht with ⟨rfl, rfl⟩ | ⟨-, ht⟩
        · exact h.blank _ s hs a (Nat.le_of_succ_le ha) ha'
        · exact h.blank i t ht a ha ha'

/-- `createBlock` of a new segment. -/
theorem create_grown (h : StoredIn B g m n blocks segs chain) (pick : ℕ)
    (hfull : ¬ (cursor g n).used < (cursor g n).size) (hstays : m.StaysInFile B pick) :
    FitsID (nthBlock g n) ∧ ∃ m' segs' chain', m.allocate B pick = .ok (nthBlock g n, m') ∧
      StoredIn B g m' (n + 1) blocks segs' chain' := by
  have he := h.freeSegments_eq
  rw [if_neg hfull] at he
  obtain ⟨hbelow, hfit⟩ := hstays
  obtain ⟨hfew', hsmall⟩ := hbelow he
  rw [h.inv.length] at hfew'
  have hnext : cursor g (n + 1) = ⟨segs.length + 1, m.nextSize, 1, (cursor g n).extent + 1 + m.nextSize⟩ := by
    rw [cursor, Cursor.next, if_neg hfull, Cursor.nextSize, h.segments, nextSize, h.last, h.factor]
  have hten : 10 ≤ m.nextSize := le_max_left _ _
  obtain ⟨i, b, m', segs', chain', hr, hcounts, w, hfac⟩ :=
    @allocate_grown B _ _ _ pick h.inv.toCounts he (lt_trans hsmall (by decide))
  have hinv' := w.inv h.inv hfit hcounts
  have hchanged := w.changed h.inv hfit
  generalize hf : m'.file = f', hh : m'.header = hd' at w hchanged
  cases w with
  | reused hne => exact absurd he hne.ne_empty
  | @grown s' o _ _ ho w =>
    have hend := hfit he o ho
    have hnew := nextOffset_eq h.inv.toShape h.inv.length h.inv.newest
    obtain rfl : ending B B.bytes segs = o := Except.ok.inj (hnew.symm.trans ho)
    rw [resize_fits hend] at hf hchanged
    have hfresh : s'.header.occupiedBlocks = 1 ∧ s'.header.allocatedBlocks = m.nextSize ∧
        s'.fileOffset = ending B B.bytes segs := by
      cases w
      exact ⟨rfl, rfl, rfl⟩
    obtain ⟨hocc, halloc, hoff⟩ := hfresh
    have hblock : nthBlock g n = (segs.length, 0) := by
      rw [nthBlock, hnext]
      rfl
    have hself : (segs ++ [s'])[segs.length]? = some s' := List.getElem?_concat_length
    -- the new blocks lie behind the old end of the file
    have hzero : ∀ a < s'.header.allocatedBlocks, s'.readBlock B m'.file a = .ok (zeroBlock B) := by
      intro a ha
      refine Segment.readBlock_zero (hinv'.inside hself) ha fun j hj => ?_
      have hsize := h.inv.size
      have hat := Segment.le_start (B := B) (s := s') a
      rw [hf]
      show (if _ then m.file.bytes j else 0) = 0
      split
      · exact m.file.zero_past j (by omega)
      · rfl
    have hsame : ∀ (i : ℕ) (t : Segment), segs[i]? = some t → ∀ a < t.header.allocatedBlocks,
        t.readBlock B m'.file a = t.readBlock B m.file a := by
      intro i t ht a ha
      rw [hf]
      exact Segment.readBlock_frame (h.inv.inside ht) ha hchanged (.inr (Nat.zero_le _))
    refine ⟨hblock ▸ ⟨h.few, (show 0 < blockLimit by decide)⟩, m', _, _, hblock ▸ hr, hinv',
      hfac.trans h.factor, by rw [List.length_append, List.length_singleton]; exact hfew', fun i t ht => ?_,
      fun i t ht => ?_, by rw [List.length_append, hnext, List.length_singleton], by rw [hh, hnext], ?_,
      fun i t ht hi => ?_,
      fun i t ht hi => ?_, fun k hk => ?_, fun i t ht a ha ha' => ?_, fun k hk => h.unborn k (by omega)⟩
    · rcases Shape.get_concat ht with ⟨rfl, rfl⟩ | ⟨-, ht⟩
      · rw [halloc]
        exact hsmall
      · exact h.sizes i t ht
    · rcases Shape.get_concat ht with ⟨rfl, rfl⟩ | ⟨hi, ht⟩
      · rw [Function.update_self]
      · rw [Function.update_of_ne hi]
        exact h.chains i t ht
    · have hext : s'.extent B = B.bytes + m.nextSize * B.bytes := by
        unfold Segment.extent
        rw [halloc]
      rw [ending_append, h.ends, hext, hnext]
      ring
    · rw [List.length_append, List.length_singleton] at hi
      rcases Shape.get_concat ht with ⟨rfl, rfl⟩ | ⟨hne', ht⟩
      · rw [hnext]
        exact hocc
      · omega
    · rw [List.length_append, List.length_singleton] at hi
      rcases Shape.get_concat ht with ⟨rfl, rfl⟩ | ⟨hne', ht⟩
      · omega
      · have hnot : ¬ 0 < t.freeBlocks := by
          intro hpos
          have hmem := (h.inv.free i).mpr ⟨t, ht, hpos⟩
          rw [he] at hmem
          exact Finset.notMem_empty i hmem
        have hle := (h.inv.chained i t ht).occupied_le
        unfold Segment.freeBlocks at hnot
        omega
    · rcases Nat.lt_succ_iff_lt_or_eq.mp hk with hk | rfl
      · obtain ⟨t, ht, hb, hread⟩ := h.held k hk
        have hlt := (List.getElem?_eq_some_iff.mp ht).1
        have hb' := lt_of_lt_of_le hb (h.inv.chained _ t ht).occupied_le
        refine ⟨t, by rw [List.getElem?_append_left hlt]; exact ht, hb, ?_⟩
        rw [hsame _ t ht _ hb', hread]
      · rw [hblock, h.unborn k le_rfl]
        exact ⟨s', hself, by dsimp only; omega, hzero 0 (by omega)⟩
    · rcases Shape.get_concat ht with ⟨rfl, rfl⟩ | ⟨-, ht⟩
      · exact hzero a ha'
      · rw [hsame i t ht a ha']
        exact h.blank i t ht a ha ha'

theorem staysInFile (h : StoredIn B g m n blocks segs chain) (pick : ℕ)
    (hfits : (cursor g (n + 1)).Fits B) : m.StaysInFile B pick := by
  have hnext : m.freeSegments = ∅ → cursor g (n + 1) =
      ⟨(cursor g n).segments + 1, m.nextSize, 1, (cursor g n).extent + 1 + m.nextSize⟩ := by
    intro he
    have hfull : ¬ (cursor g n).used < (cursor g n).size := by
      intro hroom
      have hfree := h.freeSegments_eq
      rw [if_pos hroom, he] at hfree
      exact Finset.singleton_ne_empty _ hfree.symm
    rw [cursor, Cursor.next, if_neg hfull, Cursor.nextSize, nextSize, h.last, h.factor]
  refine ⟨fun he => ?_, fun he o ho => ?_⟩
  · rw [hnext he] at hfits
    rw [h.inv.length, h.segments]
    exact ⟨hfits.1, hfits.2.1⟩
  · rw [hnext he] at hfits
    have hoff := nextOffset_eq h.inv.toShape h.inv.length h.inv.newest
    obtain rfl : ending B B.bytes segs = o := Except.ok.inj (hoff.symm.trans ho)
    have hend : (cursor g n).extent * B.bytes + B.bytes + m.nextSize * B.bytes
        = ((cursor g n).extent + 1 + m.nextSize) * B.bytes := by ring
    rw [h.ends, hend]
    exact hfits.2.2

/-- `createBlock` -/
theorem create (h : StoredIn B g m n blocks segs chain) (pick : ℕ) (hfits : (cursor g (n + 1)).Fits B) :
    ∃ m' segs' chain', m.createBlock B pick = .ok (UInt64.ofNat (blockID g n), m') ∧
      (UInt64.ofNat (blockID g n)).toNat = blockID g n ∧ StoredIn B g m' (n + 1) blocks segs' chain' := by
  obtain ⟨hfits, m', segs', chain', hr, hst⟩ : FitsID (nthBlock g n) ∧ ∃ m' segs' chain',
      m.allocate B pick = .ok (nthBlock g n, m') ∧ StoredIn B g m' (n + 1) blocks segs' chain' := by
    by_cases hroom : (cursor g n).used < (cursor g n).size
    · exact h.create_reused pick hroom
    · exact h.create_grown pick hroom (h.staysInFile pick hfits)
  refine ⟨m', segs', chain', ?_, ?_, hst⟩
  · unfold createBlock
    rw [hr, blockID_of_fits hfits]
    rfl
  · rw [blockID_of_fits hfits, blockID, if_pos hfits]

/-- A manager that is constructed on the file of a flushed one. -/
theorem reopen (h : StoredIn B g m n blocks segs chain) : ∃ m₁ m₂, m.flush = .ok m₁ ∧
    construct B g (some m₁.file) = .ok m₂ ∧ StoredIn B g m₂ n blocks segs chain := by
  obtain ⟨f', hr, hinv, hsame, hsize, hhead, hload⟩ := flush_spec h.inv (lt_trans h.few (by decide))
  refine ⟨_, _, hr, construct_flushed hinv.number hinv.segments hinv.free hinv.laid hinv.toShape.start_lt g hsize
    hhead hload, ?_⟩
  refine ⟨⟨hinv.toShape, hinv.segments, hinv.free⟩, rfl, h.few, h.sizes, h.chains, h.segments, h.last, h.ends,
    h.used, h.full, fun k hk => ?_, fun i s hs b hb hb' => ?_, h.unborn⟩
  · obtain ⟨s, hs, hb, hread⟩ := h.held k hk
    have hb' := lt_of_lt_of_le hb (h.inv.chained _ s hs).occupied_le
    exact ⟨s, hs, hb, (hsame _ _ s hs hb').trans hread⟩
  · exact (hsame i b s hs hb').trans (h.blank i s hs b hb hb')

/-- A manager in a new directory. -/
theorem fresh (hr : construct B g none = .ok m) : StoredIn B g m 0 (fun _ => zeroBlock B) [] fun _ => [] := by
  have hinv := Inv.fresh hr
  obtain ⟨-, rfl⟩ := construct_none hr
  exact ⟨hinv, rfl, by decide, fun _ _ hs => (nomatch hs), fun _ _ _ => rfl, rfl, rfl, (Nat.one_mul _).symm,
    fun _ _ hs => (nomatch hs), fun _ _ hs => (nomatch hs), fun k hk => absurd hk (Nat.not_lt_zero k),
    fun _ _ hs => (nomatch hs),
    fun _ _ => rfl⟩

end StoredIn

end BEpsilon.File
