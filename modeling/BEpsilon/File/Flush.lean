import BEpsilon.File.Invariant

/-!
# BEpsilon.File.Flush — flush and the constructor

`flush` writes the headers and touches no block; a manager constructed on what it wrote is the manager
that was flushed, `freeSegments` and all.  Both loops run over the segments in order, the constructor
adding up the offsets that nothing on disk records.
-/

namespace BEpsilon.File

open SegmentManager

variable {B : BlockSize} {f f' : ByteFile} {hd : ManagerHeader} {segs : List Segment}
  {chain : ℕ → List ℕ} {m : SegmentManager} {i lo hi : ℕ} {s : Segment}

/-- Every block of the segments reads the same in the two files. -/
def SameBlocks (B : BlockSize) (segs : List Segment) (f f' : ByteFile) : Prop :=
  ∀ (i b : ℕ) (s : Segment), segs[i]? = some s → b < s.header.allocatedBlocks →
    s.readBlock B f' b = s.readBlock B f b

theorem SameBlocks.trans {f'' : ByteFile} (h : SameBlocks B segs f f') (h' : SameBlocks B segs f' f'') :
    SameBlocks B segs f f'' :=
  fun i b s hs hb => (h' i b s hs hb).trans (h i b s hs hb)

/-- A write that shares no byte with a block. -/
theorem Shape.sameBlocks (h : Shape B f hd segs chain) (c : ByteFile.Changed lo hi f f')
    (hdis : ∀ (i b : ℕ) (s : Segment), segs[i]? = some s → b < s.header.allocatedBlocks →
      s.start B b + B.bytes ≤ lo ∨ hi ≤ s.start B b) : SameBlocks B segs f f' :=
  fun i b s hs hb => Segment.readBlock_frame (h.inside hs) hb c (hdis i b s hs hb)

/-- Flushing one header keeps everything but that header. -/
theorem Shape.flush (h : Shape B f hd segs chain) (hs : segs[i]? = some s) :
    ∃ f', s.flush f = .ok f' ∧ Shape B f' hd segs chain ∧ SameBlocks B segs f f' ∧
      ∀ (j : ℕ) (t : Segment), segs[j]? = some t → j = i ∨ Segment.load B f t.fileOffset = .ok t →
        Segment.load B f' t.fileOffset = .ok t := by
  have hB := B.header_le
  have hc := Segment.changed_flushed f s
  have hin := h.inside hs
  have hdis : ∀ (j b : ℕ) (t : Segment), segs[j]? = some t → b < t.header.allocatedBlocks →
      t.start B b + B.bytes ≤ s.fileOffset ∨ s.fileOffset + 48 ≤ t.start B b := by
    intro j b t ht hb
    have hd := h.laid.block_header_disjoint ht hs hb
    omega
  refine ⟨_, Segment.flush_eq hin.header_lt, h.frame hc (Segment.size_flushed hin) fun j t ht b hb => ?_,
    h.sameBlocks hc hdis, ?_⟩
  · exact hdis j b t ht ((h.chained j t ht).lt b hb)
  · intro j t ht hor
    by_cases hj : j = i
    · subst hj
      obtain rfl : s = t := Option.some.inj (hs.symm.trans ht)
      exact Segment.load_flushed (h.chained j s hs).header_fits (h.chained j s hs).blockSize
    · have hload := hor.resolve_left hj
      have hroom := (h.inside ht).room
      have hdj := h.laid.disjoint ht hs hj
      unfold Segment.extent at hroom hdj
      rw [Segment.load_frame hc (by omega) (by omega)]
      exact hload

/-- The loop of `flush`, from segment `i` on. -/
theorem flushSegments_spec (h : Shape B f hd segs chain) (l : List Segment) (i : ℕ)
    (hl : ∀ k s, l[k]? = some s → segs[i + k]? = some s) :
    ∃ f', flushSegments (l.map some) f = .ok f' ∧ Shape B f' hd segs chain ∧ SameBlocks B segs f f' ∧
      ∀ (j : ℕ) (t : Segment), segs[j]? = some t →
        (i ≤ j ∧ j < i + l.length) ∨ Segment.load B f t.fileOffset = .ok t →
        Segment.load B f' t.fileOffset = .ok t := by
  induction l generalizing f i with
  | nil =>
    refine ⟨f, rfl, h, fun _ _ _ _ _ => rfl, fun j t ht hor => hor.resolve_left ?_⟩
    simp only [List.length_nil]
    omega
  | cons s l ih =>
    have hs : segs[i]? = some s := hl 0 s rfl
    obtain ⟨f₁, hrun₁, h₁, hsame₁, hload₁⟩ := h.flush hs
    obtain ⟨f', hrun, h₂, hsame₂, hload₂⟩ := ih h₁ (i + 1) fun k t ht => by
      have := hl (k + 1) t ht
      rwa [Nat.add_assoc, Nat.add_comm 1 k]
    refine ⟨f', ?_, h₂, hsame₁.trans hsame₂, fun j t ht hor => hload₂ j t ht ?_⟩
    · show (s.flush f >>= fun f' => flushSegments (l.map some) f') = _
      rw [hrun₁]
      exact hrun
    by_cases hji : i + 1 ≤ j ∧ j < i + 1 + l.length
    · exact .inl hji
    · refine .inr (hload₁ j t ht ?_)
      rw [List.length_cons] at hor
      rcases hor with ⟨h₃, h₄⟩ | hload
      · exact .inl (by omega)
      · exact .inr hload

/-- `flush` saves every header and touches no block. -/
theorem flush_spec (h : Inv B m segs chain) (hlen : segs.length < UInt64.size) :
    ∃ f', m.flush = .ok { m with file := f' } ∧ Inv B { m with file := f' } segs chain ∧
      SameBlocks B segs m.file f' ∧ 16 ≤ f'.size ∧ ManagerHeader.ofBytes (f'.pread 16 0) = m.header ∧
      ∀ (j : ℕ) (t : Segment), segs[j]? = some t → Segment.load B f' t.fileOffset = .ok t := by
  have hB := B.header_le
  obtain ⟨f₁, hrun, h₁, hsame₁, hload₁⟩ :=
    flushSegments_spec h.toShape segs 0 fun k s hs => by rwa [Nat.zero_add]
  have hc : ByteFile.Changed 0 16 f₁ (f₁.pwrite m.header.toBytes 0) := by
    have w := ByteFile.Changed.pwrite f₁ m.header.toBytes 0
    rwa [ManagerHeader.length_toBytes] at w
  have hle : B.bytes ≤ f₁.size := by
    rw [h₁.size]
    exact le_ending _ _
  have hsize : (f₁.pwrite m.header.toBytes 0).size = f₁.size := by
    rw [ByteFile.size_pwrite, ManagerHeader.length_toBytes]
    omega
  have hoff : ∀ (i : ℕ) (s : Segment), segs[i]? = some s → B.bytes ≤ s.fileOffset :=
    fun i s hs => (h.laid.bounds hs).1
  have hdis : ∀ (i b : ℕ) (s : Segment), segs[i]? = some s → b < s.header.allocatedBlocks →
      s.start B b + B.bytes ≤ 0 ∨ 16 ≤ s.start B b := by
    intro i b s hs _
    have h₂ := hoff i s hs
    have h₃ := Segment.le_start (B := B) (s := s) b
    omega
  have hlast : m.header.lastAllocatedBlocks < UInt64.size := by
    rw [h.last]
    cases hg : segs.getLast? with
    | none => exact (by decide : 0 < UInt64.size)
    | some s =>
      rw [List.getLast?_eq_getElem?] at hg
      exact (h.chained _ s hg).fits
  refine ⟨f₁.pwrite m.header.toBytes 0, ?_, ⟨h₁.frame hc hsize fun i s hs b hb => ?_, h.segments, h.free⟩,
    hsame₁.trans (h₁.sameBlocks hc hdis), ?_, ?_, fun j t ht => ?_⟩
  · have hwrite : writeOrRaise .couldNotSaveFileHeader f₁ m.header.toBytes 0
        = .ok (f₁.pwrite m.header.toBytes 0) := by
      unfold writeOrRaise
      rw [ManagerHeader.length_toBytes, if_pos (by decide)]
    rw [← h.segments] at hrun
    unfold SegmentManager.flush
    rw [hrun]
    show (writeOrRaise .couldNotSaveFileHeader f₁ m.header.toBytes 0 >>= fun f' => Except.ok { m with file := f' }) = _
    rw [hwrite]
    rfl
  · exact hdis i b s hs ((h₁.chained i s hs).lt b hb)
  · rw [hsize]
    omega
  · have hread := ByteFile.pread_pwrite f₁ m.header.toBytes 0
    rw [ManagerHeader.length_toBytes] at hread
    rw [hread]
    exact ManagerHeader.ofBytes_toBytes (by rw [h.number]; exact hlen) hlast
  · have hload := hload₁ j t ht (.inl ⟨Nat.zero_le _, by
      rw [Nat.zero_add]; exact (List.getElem?_eq_some_iff.mp ht).1⟩)
    have hroom := (h₁.inside ht).room
    have h₂ := hoff j t ht
    unfold Segment.extent at hroom
    rw [Segment.load_frame hc (by omega) (by omega)]
    exact hload

/-- The loop of the constructor reads back a laid list whose headers are saved.  Where the last segment ends does
not matter. -/
theorem loadSegments_spec (l : List Segment) {o : ℕ} (i : ℕ) (hl : Laid B o l)
    (hstart : ∀ s ∈ l, s.fileOffset < UInt64.size) (hload : ∀ s ∈ l, Segment.load B f s.fileOffset = .ok s) :
    ∃ free, loadSegments B f l.length i (o % UInt64.size) = .ok (l.map some, free) ∧
      ∀ j, j ∈ free ↔ ∃ k s, l[k]? = some s ∧ j = i + k ∧ 0 < s.freeBlocks := by
  induction l generalizing o i with
  | nil =>
    refine ⟨∅, rfl, fun j => iff_of_false (Finset.notMem_empty j) ?_⟩
    rintro ⟨k, s, hs, -⟩
    exact nomatch hs
  | cons s l ih =>
    have hs := hload s List.mem_cons_self
    obtain ⟨free, hrun, hfree⟩ := ih (i + 1) hl.2 (fun t ht => hstart t (List.mem_cons_of_mem _ ht))
      fun t ht => hload t (List.mem_cons_of_mem _ ht)
    refine ⟨if 0 < s.freeBlocks then insert i free else free, ?_, fun j => ?_⟩
    · have hs' : Segment.load B f (o % UInt64.size) = .ok s := by
        rw [← hl.1, Nat.mod_eq_of_lt (hstart s List.mem_cons_self)]
        exact hs
      have hnext : (s.fileOffset + s.getTotalSize B) % UInt64.size = (o + s.extent B) % UInt64.size := by
        rw [hl.1]
        exact Nat.add_mod_mod ..
      rw [List.length_cons, loadSegments, hs']
      show (loadSegments B f l.length (i + 1) ((s.fileOffset + s.getTotalSize B) % UInt64.size) >>= _) = _
      rw [hnext, hrun]
      rfl
    · have hcons : (∃ k t, (s :: l)[k]? = some t ∧ j = i + k ∧ 0 < t.freeBlocks) ↔
          (j = i ∧ 0 < s.freeBlocks) ∨ j ∈ free := by
        rw [hfree]
        constructor
        · rintro ⟨k, t, ht, hj, hpos⟩
          cases k with
          | zero =>
            obtain rfl : s = t := Option.some.inj ht
            exact .inl ⟨hj, hpos⟩
          | succ k => exact .inr ⟨k, t, ht, by omega, hpos⟩
        · rintro (⟨hj, hpos⟩ | ⟨k, t, ht, hj, hpos⟩)
          · exact ⟨0, s, rfl, hj, hpos⟩
          · exact ⟨k + 1, t, ht, by omega, hpos⟩
      rw [hcons]
      split
      · rename_i hpos
        rw [Finset.mem_insert]
        exact or_congr_left (and_iff_left hpos).symm
      · rename_i hpos
        rw [or_iff_right fun h => hpos h.2]

/-- A manager that is opened on a flushed file is the one that was flushed. -/
theorem construct_flushed (hnum : m.header.numberOfSegments = segs.length) (hsegs : m.segments = segs.map some)
    (hfreeSegments : ∀ i, i ∈ m.freeSegments ↔ ∃ s, segs[i]? = some s ∧ 0 < s.freeBlocks)
    (hlaid : Laid B B.bytes segs) (hstart : ∀ s ∈ segs, s.fileOffset < UInt64.size) (g : ℚ≥0)
    (hsize : 16 ≤ m.file.size)
    (hhead : ManagerHeader.ofBytes (m.file.pread 16 0) = m.header)
    (hload : ∀ (j : ℕ) (t : Segment), segs[j]? = some t → Segment.load B m.file t.fileOffset = .ok t) :
    construct B g (some m.file) = .ok { m with growthFactor := g } := by
  obtain ⟨free, hrun, hfree⟩ := loadSegments_spec segs 0 hlaid hstart fun s hs => by
    obtain ⟨k, hk⟩ := List.mem_iff_getElem?.mp hs
    exact hload k s hk
  rw [Nat.mod_eq_of_lt B.fits] at hrun
  have hfreeEq : free = m.freeSegments := by
    ext j
    rw [hfree, hfreeSegments]
    constructor
    · rintro ⟨k, s, hs, rfl, hpos⟩
      exact ⟨s, by rwa [Nat.zero_add], hpos⟩
    · rintro ⟨s, hs, hpos⟩
      exact ⟨j, s, hs, (Nat.zero_add j).symm, hpos⟩
  have hlen : (m.file.pread 16 0).length = 16 := ByteFile.length_pread (by omega)
  unfold construct
  dsimp only
  rw [if_neg (not_not.mpr hlen), hhead, hnum, hrun, hfreeEq, ← hsegs]
  rfl

/-- Every segment of a file starts below the end of a `size_t`. -/
theorem Shape.start_lt (h : Shape B f hd segs chain) : ∀ s ∈ segs, s.fileOffset < UInt64.size := by
  intro s hs
  obtain ⟨i, hi⟩ := List.mem_iff_getElem?.mp hs
  have hlt := (h.inside hi).header_lt
  have hlim := Segment.limit_lt
  omega

end BEpsilon.File
