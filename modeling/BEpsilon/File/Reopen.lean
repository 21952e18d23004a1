import BEpsilon.File.Reliable

/-!
# BEpsilon.File.Reopen — a flushed file opened again

Here only the number of segments is limited and where they end, not their sizes, so a block number may run into
the segment field of its id.  `Steady` is what survives: the id then names a block of a later segment, which is
at least as large, and no live id names a deleted block.  So a live id always reads what was last written through
it, and `session_reopen` follows from `construct_flushed`.  `session_reopen_cut` is the run whose new segment does
not end inside the file.
-/

namespace BEpsilon.File

open SegmentManager

variable {B : BlockSize} {g : ℚ≥0} {c : Client B} {m m' : SegmentManager} {segs segs' : List Segment}
  {chain chain' : ℕ → List ℕ} {i j a b pick : ℕ} {s s' t : Segment} {id id' : UInt64}
  {f' : ByteFile} {hd' : ManagerHeader} {l' : List ℕ}

/-- The next segment keeps the manager below `2 ^ 16` segments and ends inside the file. -/
def SegmentManager.FewInFile (B : BlockSize) (m : SegmentManager) (pick : ℕ) : Prop :=
  m.FewSegments pick ∧ (m.freeSegments = ∅ → m.FitsFile B)

/-! ## The growth of the segments -/

/-- Segments only grow: the first has at most ten blocks unless the factor is above one. -/
structure Growth (m : SegmentManager) (segs : List Segment) : Prop where
  factor : 10 < m.header.lastAllocatedBlocks → m.growthFactor.den ≤ m.growthFactor.num
  mono : ∀ (i j : ℕ) (s t : Segment), i ≤ j → segs[i]? = some s → segs[j]? = some t →
    s.header.allocatedBlocks ≤ t.header.allocatedBlocks
  full : ∀ (i : ℕ) (s : Segment), segs[i]? = some s → i + 1 < segs.length →
    s.header.occupiedBlocks = s.header.allocatedBlocks

theorem last_le_nextSize
    (hf : 10 < m.header.lastAllocatedBlocks → m.growthFactor.den ≤ m.growthFactor.num) :
    m.header.lastAllocatedBlocks ≤ m.nextSize := by
  unfold nextSize
  by_cases h : 10 < m.header.lastAllocatedBlocks
  · refine le_trans ?_ (le_max_right _ _)
    rw [Nat.le_div_iff_mul_le m.growthFactor.den_pos]
    exact Nat.mul_le_mul_left _ (hf h)
  · exact le_trans (by omega) (le_max_left _ _)

theorem factor_nextSize
    (hf : 10 < m.header.lastAllocatedBlocks → m.growthFactor.den ≤ m.growthFactor.num)
    (hn : 10 < m.nextSize) : m.growthFactor.den ≤ m.growthFactor.num := by
  by_cases h : 10 < m.header.lastAllocatedBlocks
  · exact hf h
  · by_contra hlt
    have hle : m.header.lastAllocatedBlocks * m.growthFactor.num / m.growthFactor.den
        ≤ m.header.lastAllocatedBlocks := by
      refine Nat.div_le_of_le_mul ?_
      rw [Nat.mul_comm m.growthFactor.den]
      exact Nat.mul_le_mul_left _ (by omega)
    unfold nextSize at hn
    omega

/-- The newest segment has `lastAllocatedBlocks` blocks. -/
theorem last_eq (h : Counts B m segs chain) (hs : segs[i]? = some s) (hi : segs.length = i + 1) :
    m.header.lastAllocatedBlocks = s.header.allocatedBlocks := by
  rw [h.last, List.getLast?_eq_getElem?, hi, Nat.add_sub_cancel, hs]
  rfl

theorem Growth.set (h : Growth m segs) (hs : segs[i]? = some s)
    (ha : s'.header.allocatedBlocks = s.header.allocatedBlocks)
    (ho : i + 1 < segs.length → s'.header.occupiedBlocks = s.header.occupiedBlocks)
    (hlast : m'.header.lastAllocatedBlocks = m.header.lastAllocatedBlocks)
    (hg : m'.growthFactor = m.growthFactor) : Growth m' (segs.set i s') := by
  have hsize : ∀ (j : ℕ) (t : Segment), (segs.set i s')[j]? = some t →
      ∃ u, segs[j]? = some u ∧ t.header.allocatedBlocks = u.header.allocatedBlocks := by
    intro j t ht
    rcases Shape.get_set ht with ⟨rfl, rfl⟩ | ⟨-, ht⟩
    · exact ⟨s, hs, ha⟩
    · exact ⟨t, ht, rfl⟩
  refine ⟨by rw [hlast, hg]; exact h.factor, fun j k t u hjk ht hu => ?_, fun j t ht hj => ?_⟩
  · obtain ⟨t', ht', hta⟩ := hsize j t ht
    obtain ⟨u', hu', hua⟩ := hsize k u hu
    rw [hta, hua]
    exact h.mono j k t' u' hjk ht' hu'
  · rw [List.length_set] at hj
    rcases Shape.get_set ht with ⟨rfl, rfl⟩ | ⟨-, ht⟩
    · rw [ho hj, ha]
      exact h.full j s hs hj
    · exact h.full j t ht hj

/-- A new segment is as large as all before it, and they are full. -/
theorem Growth.append (h : Growth m segs) (hinv : Counts B m segs chain) (he : m.freeSegments = ∅)
    (ha : s'.header.allocatedBlocks = m.nextSize)
    (hlast : m'.header.lastAllocatedBlocks = m.nextSize) (hg : m'.growthFactor = m.growthFactor) :
    Growth m' (segs ++ [s']) := by
  have hle : ∀ (j : ℕ) (t : Segment), segs[j]? = some t → t.header.allocatedBlocks ≤ m.nextSize := by
    intro j t ht
    have hlt := (List.getElem?_eq_some_iff.mp ht).1
    obtain ⟨u, hu⟩ : ∃ u, segs[segs.length - 1]? = some u :=
      ⟨_, List.getElem?_eq_getElem (by omega)⟩
    have hm := h.mono j _ t u (by omega) ht hu
    rw [← last_eq hinv hu (by omega)] at hm
    exact le_trans hm (last_le_nextSize h.factor)
  refine ⟨?_, fun j k t u hjk ht hu => ?_, fun j t ht hj => ?_⟩
  · rw [hlast, hg]
    exact factor_nextSize h.factor
  · rcases Shape.get_concat hu with ⟨rfl, rfl⟩ | ⟨hk, hu⟩
    · rcases Shape.get_concat ht with ⟨-, rfl⟩ | ⟨-, ht⟩
      · exact le_rfl
      · rw [ha]
        exact hle j t ht
    · have hlt := (List.getElem?_eq_some_iff.mp hu).1
      rcases Shape.get_concat ht with ⟨rfl, -⟩ | ⟨-, ht⟩
      · omega
      · exact h.mono j k t u hjk ht hu
  · rw [List.length_append, List.length_singleton] at hj
    rcases Shape.get_concat ht with ⟨rfl, -⟩ | ⟨-, ht⟩
    · omega
    · have hocc := (hinv.chained j t ht).occupied_le
      have hnot : ¬0 < t.freeBlocks := by
        intro hpos
        have hmem := (hinv.free j).mpr ⟨t, ht, hpos⟩
        rw [he] at hmem
        exact Finset.notMem_empty j hmem
      unfold Segment.freeBlocks at hnot
      omega

/-! ## Live ids -/

/-- A call that found the segment of an id. -/
theorem Counts.exists_segment (h : Counts B m segs chain)
    (hne : m.segments[getIndexFromID id]? ≠ none) : ∃ s, segs[getIndexFromID id]? = some s := by
  rw [h.segments, List.getElem?_map, ne_eq, Option.map_eq_none_iff] at hne
  exact Option.ne_none_iff_exists'.mp hne

/-- The ids that are left when one is deleted. -/
theorem live_filter (c : Client B) (id : UInt64) :
    (c.blocks.filter fun p => idOf p ≠ id).image idOf = c.live.erase id := by
  ext id'
  rw [Finset.mem_image, Finset.mem_erase]
  constructor
  · rintro ⟨p, hp, rfl⟩
    obtain ⟨hp, hne⟩ := Finset.mem_filter.mp hp
    exact ⟨hne, Finset.mem_image.mpr ⟨p, hp, rfl⟩⟩
  · rintro ⟨hne, hid⟩
    obtain ⟨p, hp, rfl⟩ := Finset.mem_image.mp hid
    exact ⟨p, Finset.mem_filter.mpr ⟨hp, hne⟩, rfl⟩

/-- A live id names a block that is there and not deleted, or one of a segment to come. -/
structure Steady (B : BlockSize) (c : Client B) (segs : List Segment) (chain : ℕ → List ℕ) : Prop where
  inv : Inv B c.manager segs chain
  growth : Growth c.manager segs
  few : segs.length < segmentLimit
  free_live : ∀ (i : ℕ) (s : Segment), segs[i]? = some s → ∀ b ∈ chain i, idOf (i, b) ∉ c.live
  live_lt : ∀ id ∈ c.live, ∀ s, segs[getIndexFromID id]? = some s →
    getBlockFromID id < s.header.allocatedBlocks
  live_next : ∀ id ∈ c.live, segs.length ≤ getIndexFromID id →
    blockLimit ≤ c.manager.header.lastAllocatedBlocks
  data : ∀ id d, c.data id = some d → id ∈ c.live ∧ c.manager.readBlock B id = .ok d

/-- What the id of a block handed out by a segment names. -/
theorem names_reused (h : Counts B m segs chain) (hg : Growth m segs) (hfew : segs.length < segmentLimit)
    (hs : segs[i]? = some s) (w : s.Handed (chain i) b s' l') :
    (∀ (j a : ℕ) (t : Segment), (segs.set i s')[j]? = some t → a ∈ Function.update chain i l' j →
      idOf (j, a) ≠ idOf (i, b)) ∧
      (∀ t, (segs.set i s')[getIndexFromID (idOf (i, b))]? = some t →
        getBlockFromID (idOf (i, b)) < t.header.allocatedBlocks) ∧
      (segs.length ≤ getIndexFromID (idOf (i, b)) → blockLimit ≤ m.header.lastAllocatedBlocks) := by
  have hch := h.chained i s hs
  have hil := (List.getElem?_eq_some_iff.mp hs).1
  have hb := w.lt_allocated hch
  have hcore := h.toCore.handed hs w
  have hback : ∀ (j a : ℕ) (t : Segment), (segs.set i s')[j]? = some t → a ∈ Function.update chain i l' j →
      getIndexFromID (idOf (j, a)) = j ∧ getBlockFromID (idOf (j, a)) = a := by
    intro j a t ht ha
    have hj := (List.getElem?_eq_some_iff.mp ht).1
    rw [List.length_set] at hj
    have hlim := hcore.small j t ht a ha
    unfold idOf
    exact ⟨index_packID_of_lt (by omega) hlim, block_packID_of_lt (by omega) hlim⟩
  generalize hl : chain i = l at w
  cases w with
  | reused b l' =>
    have hlim : b < blockLimit := h.small i s hs b (by rw [hl]; exact List.mem_cons_self)
    have hidx : getIndexFromID (idOf (i, b)) = i := index_packID_of_lt (by omega) hlim
    have hblk : getBlockFromID (idOf (i, b)) = b := block_packID_of_lt (by omega) hlim
    refine ⟨fun j a t ht ha he => ?_, fun t ht => ?_, fun hle => by omega⟩
    · obtain ⟨h₁, h₂⟩ := hback j a t ht ha
      rw [he, hidx] at h₁
      rw [he, hblk] at h₂
      subst h₁ h₂
      rw [Function.update_self] at ha
      have hnd := hch.nodup
      rw [hl] at hnd
      exact (List.nodup_cons.mp hnd).1 ha
    · rw [hidx, List.getElem?_set_self hil] at ht
      obtain rfl := Option.some.inj ht
      rw [hblk]
      exact hb
  | unused ho =>
    -- only the newest segment has unused blocks
    have hnew : segs.length = i + 1 := by
      by_contra hne
      have hfull := hg.full i s hs (by omega)
      omega
    have hsize : s.header.occupiedBlocks < UInt64.size := lt_trans ho hch.fits
    have hidx : getIndexFromID (idOf (i, s.header.occupiedBlocks))
        = i ||| s.header.occupiedBlocks / blockLimit := index_packID (by omega) hsize
    have hblk : getBlockFromID (idOf (i, s.header.occupiedBlocks))
        = s.header.occupiedBlocks % blockLimit := block_packID (by omega) hsize
    have hge : i ≤ i ||| s.header.occupiedBlocks / blockLimit := Nat.left_le_or
    refine ⟨fun j a t ht ha he => ?_, fun t ht => ?_, fun hle => ?_⟩
    · obtain ⟨h₁, -⟩ := hback j a t ht ha
      rw [he, hidx] at h₁
      have hj := (List.getElem?_eq_some_iff.mp ht).1
      rw [List.length_set] at hj
      have hji : j = i := by omega
      subst hji
      rw [Function.update_self] at ha
      exact nomatch ha
    · have hlt := (List.getElem?_eq_some_iff.mp ht).1
      rw [List.length_set, hidx] at hlt
      have hi' : i ||| s.header.occupiedBlocks / blockLimit = i := by omega
      rw [hidx, hi', List.getElem?_set_self hil] at ht
      obtain rfl := Option.some.inj ht
      rw [hblk]
      exact lt_of_le_of_lt (Nat.mod_le _ _) ho
    · rw [hidx] at hle
      rw [last_eq h hs hnew]
      by_contra hlt
      have hzero : s.header.occupiedBlocks / blockLimit = 0 := Nat.div_eq_of_lt (by omega)
      rw [hzero, Nat.or_zero] at hle
      omega

/-- What the id of a new block names. -/
theorem Allocation.names (h : Counts B m segs chain) (hg : Growth m segs) (hfew : segs.length < segmentLimit)
    (w : Allocation B m segs chain pick i b segs' chain' f' hd') :
    (∀ (j a : ℕ) (t : Segment), segs'[j]? = some t → a ∈ chain' j → idOf (j, a) ≠ idOf (i, b)) ∧
      (∀ t, segs'[getIndexFromID (idOf (i, b))]? = some t →
        getBlockFromID (idOf (i, b)) < t.header.allocatedBlocks) ∧
      (segs'.length ≤ getIndexFromID (idOf (i, b)) → blockLimit ≤ hd'.lastAllocatedBlocks) := by
  cases w with
  | reused hne hs w =>
    rw [List.length_set]
    exact names_reused h hg hfew hs w
  | @grown s' o he hlt ho w =>
    have hidx : getIndexFromID (idOf (segs.length, 0)) = segs.length :=
      index_packID_of_lt hfew (show 0 < blockLimit by decide)
    have hblk : getBlockFromID (idOf (segs.length, 0)) = 0 :=
      block_packID_of_lt hfew (show 0 < blockLimit by decide)
    refine ⟨fun j a t ht ha heq => ?_, fun t ht => ?_, fun hle => ?_⟩
    · rcases Shape.get_concat ht with ⟨rfl, -⟩ | ⟨hj, ht⟩
      · rw [Function.update_self] at ha
        exact nomatch ha
      · rw [Function.update_of_ne hj] at ha
        have hjl := (List.getElem?_eq_some_iff.mp ht).1
        have hja : getIndexFromID (idOf (j, a)) = j :=
          index_packID_of_lt (by omega) (h.small j t ht a ha)
        rw [heq, hidx] at hja
        exact hj hja.symm
    · rw [hidx, List.getElem?_concat_length] at ht
      obtain rfl := Option.some.inj ht
      have hten : 10 ≤ m.nextSize := le_max_left _ _
      rw [hblk, w.allocatedBlocks]
      show 0 < m.nextSize
      omega
    · rw [hidx, List.length_append, List.length_singleton] at hle
      omega

theorem Allocation.growth (h : Counts B m segs chain) (hg : Growth m segs)
    (w : Allocation B m segs chain pick i b segs' chain' f' hd') (hd : m'.header = hd')
    (hfac : m'.growthFactor = m.growthFactor) : Growth m' segs' := by
  cases w with
  | @reused s s' b l' hne hs w =>
    refine hg.set hs w.allocatedBlocks (fun hi => ?_) (by rw [hd]) hfac
    have hfull := hg.full _ s hs hi
    generalize chain (m.firstFree pick) = l at w
    cases w with
    | reused b l => rfl
    | unused ho => omega
  | grown he hlt ho w => exact hg.append h he w.allocatedBlocks (by rw [hd]) hfac

theorem Allocation.length_le (hg : Growth m segs)
    (w : Allocation B m segs chain pick i b segs' chain' f' hd') :
    segs.length ≤ segs'.length ∧ m.header.lastAllocatedBlocks ≤ hd'.lastAllocatedBlocks := by
  cases w with
  | reused hne hs w => exact ⟨le_of_eq List.length_set.symm, le_rfl⟩
  | grown he hlt ho w =>
    refine ⟨?_, last_le_nextSize hg.factor⟩
    rw [List.length_append]
    exact Nat.le_add_right _ _

theorem Allocation.few' (h : Counts B m segs chain) (hfew : segs.length < segmentLimit)
    (hfew' : m.FewSegments pick) (w : Allocation B m segs chain pick i b segs' chain' f' hd') :
    segs'.length < segmentLimit := by
  cases w with
  | reused hne hs w => rwa [List.length_set]
  | grown he hlt ho w =>
    rw [List.length_append, List.length_singleton, ← h.length]
    exact hfew' he

/-- The chains after a block is handed out have no new element. -/
theorem Allocation.chain_mem (w : Allocation B m segs chain pick i b segs' chain' f' hd')
    (ht : segs'[j]? = some t) (ha : a ∈ chain' j) : ∃ u, segs[j]? = some u ∧ a ∈ chain j := by
  cases w with
  | reused hne hs w =>
    rcases Shape.get_set ht with ⟨rfl, -⟩ | ⟨hj, ht⟩
    · rw [Function.update_self] at ha
      exact ⟨_, hs, w.subset ha⟩
    · rw [Function.update_of_ne hj] at ha
      exact ⟨t, ht, ha⟩
  | grown he hlt ho w =>
    rcases Shape.get_concat ht with ⟨rfl, -⟩ | ⟨hj, ht⟩
    · rw [Function.update_self] at ha
      exact nomatch ha
    · rw [Function.update_of_ne hj] at ha
      exact ⟨t, ht, ha⟩

/-- A segment after `createBlock` is an old one, or the new one is as large as the last one was. -/
theorem Allocation.size_cases (hg : Growth m segs)
    (w : Allocation B m segs chain pick i b segs' chain' f' hd') (ht : segs'[j]? = some t) :
    (∃ u, segs[j]? = some u ∧ t.header.allocatedBlocks = u.header.allocatedBlocks) ∨
      segs.length ≤ j ∧ m.header.lastAllocatedBlocks ≤ t.header.allocatedBlocks := by
  cases w with
  | reused hne hs w =>
    rcases Shape.get_set ht with ⟨rfl, rfl⟩ | ⟨hj, ht⟩
    · exact .inl ⟨_, hs, w.allocatedBlocks⟩
    · exact .inl ⟨t, ht, rfl⟩
  | grown he hlt ho w =>
    rcases Shape.get_concat ht with ⟨rfl, rfl⟩ | ⟨hj, ht⟩
    · refine .inr ⟨le_rfl, ?_⟩
      rw [w.allocatedBlocks]
      exact last_le_nextSize hg.factor
    · exact .inl ⟨t, ht, rfl⟩

namespace Steady

theorem fresh (hr : construct B g none = .ok m) : Steady B ⟨m, ∅, fun _ => none⟩ [] fun _ => [] := by
  have hinv := Inv.fresh hr
  have hlast : m.header.lastAllocatedBlocks = 0 := hinv.last
  exact ⟨hinv, ⟨fun h => absurd h (by rw [hlast]; decide), fun _ _ _ _ _ hs => (nomatch hs),
    fun _ _ hs => (nomatch hs)⟩,
    by decide, fun _ _ hs => (nomatch hs), fun id hid => absurd hid (Finset.notMem_empty id),
    fun id hid => absurd hid (Finset.notMem_empty id), fun _ _ hd => (nomatch hd)⟩

/-- A live id whose segment exists. -/
theorem find (h : Steady B c segs chain) (hid : id ∈ c.live)
    (hne : c.manager.segments[getIndexFromID id]? ≠ none) :
    ∃ s, segs[getIndexFromID id]? = some s ∧ getBlockFromID id < s.header.allocatedBlocks ∧
      getBlockFromID id ∉ chain (getIndexFromID id) := by
  obtain ⟨s, hs⟩ := h.inv.exists_segment hne
  refine ⟨s, hs, h.live_lt id hid s hs, fun hmem => h.free_live _ s hs _ hmem ?_⟩
  unfold idOf
  rw [packID_of_id]
  exact hid

/-- An id that can be read names a segment. -/
theorem find_data (h : Steady B c segs chain) {d : Block B} (hd : c.data id = some d) :
    ∃ s, segs[getIndexFromID id]? = some s ∧ getBlockFromID id < s.header.allocatedBlocks := by
  obtain ⟨hid, hread⟩ := h.data id d hd
  have hne : c.manager.segments[getIndexFromID id]? ≠ none := by
    intro hnone
    unfold SegmentManager.readBlock at hread
    rw [hnone] at hread
    exact nomatch hread
  obtain ⟨s, hs, hb, -⟩ := h.find hid hne
  exact ⟨s, hs, hb⟩

/-- `createBlock`, whatever the size of the segments. -/
theorem create (h : Steady B c segs chain) (hP : c.manager.FewInFile B pick)
    (hr : c.manager.allocate B pick = .ok ((i, b), m')) :
    ∃ segs' chain', Steady B ⟨m', insert (i, b) c.blocks, c.data⟩ segs' chain' := by
  obtain ⟨segs', chain', hcounts, w, hfac⟩ := allocate_cases h.inv.toCounts hr
  have hinv : Inv B m' segs' chain' := w.inv h.inv hP.2 hcounts
  obtain ⟨hnames, hlt, hnext⟩ := w.names h.inv.toCounts h.growth h.few
  obtain ⟨hlen, hlast⟩ := w.length_le h.growth
  have hlive : Client.live ⟨m', insert (i, b) c.blocks, c.data⟩ = insert (idOf (i, b)) c.live :=
    Finset.image_insert ..
  refine ⟨segs', chain', hinv, w.growth h.inv.toCounts h.growth rfl hfac, w.few' h.inv.toCounts h.few hP.1,
    ?_, ?_, ?_, ?_⟩
  · intro j t ht a ha
    rw [hlive, Finset.mem_insert, not_or]
    obtain ⟨u, hu, ha'⟩ := w.chain_mem ht ha
    exact ⟨hnames j a t ht ha, h.free_live j u hu a ha'⟩
  · intro id hid t ht
    rw [hlive] at hid
    rcases Finset.mem_insert.mp hid with rfl | hid
    · exact hlt t ht
    · rcases w.size_cases h.growth ht with ⟨u, hu, ha⟩ | ⟨hle, hsize⟩
      · rw [ha]
        exact h.live_lt id hid u hu
      · exact lt_of_lt_of_le (getBlockFromID_lt id) (le_trans (h.live_next id hid hle) hsize)
  · intro id hid hle
    rw [hlive] at hid
    rcases Finset.mem_insert.mp hid with rfl | hid
    · exact hnext hle
    · exact le_trans (h.live_next id hid (by omega)) hlast
  · intro id d hd
    obtain ⟨hid, hd'⟩ := h.data id d hd
    obtain ⟨s, hs, hb⟩ := h.find_data hd
    rw [hlive]
    refine ⟨Finset.mem_insert_of_mem hid, ?_⟩
    rw [← hd']
    exact readBlock_kept h.inv hinv w.kept (w.changed h.inv hP.2) hs hb (.inr (Nat.zero_le _))

/-- `deleteBlock` of a live id. -/
theorem delete (h : Steady B c segs chain) (hid : id ∈ c.live)
    (hr : c.manager.deleteBlock B id = .ok m') :
    ∃ segs' chain', Steady B ⟨m', c.blocks.filter fun p => idOf p ≠ id, Function.update c.data id none⟩
      segs' chain' := by
  have hne : c.manager.segments[getIndexFromID id]? ≠ none := by
    intro hnone
    unfold SegmentManager.deleteBlock markFree at hr
    rw [hnone] at hr
    exact nomatch hr
  obtain ⟨s, hs, hb, hl⟩ := h.find hid hne
  obtain ⟨m₁, hr', hinv, hc, hhead, hfac⟩ := deleteBlock_spec h.inv hs hb hl
  obtain rfl := Except.ok.inj (hr'.symm.trans hr)
  have hlive : Client.live ⟨m₁, c.blocks.filter fun p => idOf p ≠ id, Function.update c.data id none⟩
      = c.live.erase id := live_filter c id
  refine ⟨_, _, hinv, h.growth.set hs rfl (fun _ => rfl) (by rw [hhead]) hfac,
    by rw [List.length_set]; exact h.few, ?_, ?_, ?_, ?_⟩
  · intro j t ht a ha
    rw [hlive]
    intro hmem
    obtain ⟨hne', hmem⟩ := Finset.mem_erase.mp hmem
    rcases Shape.get_set ht with ⟨rfl, -⟩ | ⟨hj, ht⟩
    · rw [Function.update_self] at ha
      rcases List.mem_cons.mp ha with rfl | ha
      · exact hne' (packID_of_id id)
      · exact h.free_live _ s hs a ha hmem
    · rw [Function.update_of_ne hj] at ha
      exact h.free_live j t ht a ha hmem
  · intro id' hid' t ht
    rw [hlive] at hid'
    have hid' := Finset.mem_of_mem_erase hid'
    rcases Shape.get_set ht with ⟨hj, rfl⟩ | ⟨hj, ht⟩
    · rw [Segment.allocated_afterDelete]
      exact h.live_lt id' hid' s (hj ▸ hs)
    · exact h.live_lt id' hid' t ht
  · intro id' hid' hle
    rw [hlive] at hid'
    rw [List.length_set] at hle
    rw [show (Client.mk m₁ _ _).manager.header = c.manager.header from hhead]
    exact h.live_next id' (Finset.mem_of_mem_erase hid') hle
  · intro id' d hd
    by_cases hne' : id' = id
    · subst hne'
      dsimp only at hd
      rw [Function.update_self] at hd
      exact nomatch hd
    · dsimp only at hd
      rw [Function.update_of_ne hne'] at hd
      obtain ⟨hid', hd'⟩ := h.data id' d hd
      obtain ⟨t, ht, hbt⟩ := h.find_data hd
      rw [hlive]
      refine ⟨Finset.mem_erase_of_ne_of_mem hne' hid', ?_⟩
      rw [← hd']
      exact readBlock_kept h.inv hinv (Kept.set hs rfl rfl) hc ht hbt (ids_disjoint h.inv hne' ht hbt hs hb)

/-- `writeBlock` of a live id. -/
theorem write (h : Steady B c segs chain) (data : Block B) (hid : id ∈ c.live)
    (hr : c.manager.writeBlock B id data = .ok m') :
    Steady B ⟨m', c.blocks, Function.update c.data id (some data)⟩ segs chain := by
  have hne : c.manager.segments[getIndexFromID id]? ≠ none := by
    intro hnone
    unfold SegmentManager.writeBlock at hr
    rw [hnone] at hr
    exact nomatch hr
  obtain ⟨s, hs, hb, hl⟩ := h.find hid hne
  obtain ⟨m₁, hr', hinv, hc, hread, hhead, hfac⟩ := writeBlock_spec h.inv data hs hb hl
  obtain rfl := Except.ok.inj (hr'.symm.trans hr)
  refine ⟨hinv, ⟨by rw [hhead, hfac]; exact h.growth.factor, h.growth.mono, h.growth.full⟩, h.few,
    h.free_live, h.live_lt, by rw [hhead]; exact h.live_next, fun id' d hd => ?_⟩
  by_cases hne' : id' = id
  · subst hne'
    dsimp only at hd
    rw [Function.update_self] at hd
    obtain rfl := Option.some.inj hd
    exact ⟨hid, hread⟩
  · dsimp only at hd
    rw [Function.update_of_ne hne'] at hd
    obtain ⟨hid', hd'⟩ := h.data id' d hd
    obtain ⟨t, ht, hbt⟩ := h.find_data hd
    refine ⟨hid', ?_⟩
    rw [← hd']
    exact readBlock_kept h.inv hinv (Kept.refl segs) hc ht hbt (ids_disjoint h.inv hne' ht hbt hs hb)

/-- `flush`. -/
theorem flush (h : Steady B c segs chain) :
    ∃ f', c.manager.flush = .ok { c.manager with file := f' } ∧
      Steady B ⟨{ c.manager with file := f' }, c.blocks, c.data⟩ segs chain ∧
      ∀ g', construct B g' (some f') = .ok { c.manager with file := f', growthFactor := g' } := by
  have hlen : segs.length < UInt64.size := lt_trans h.few (by decide)
  obtain ⟨f', hr, hinv, hsame, hsize, hhead, hload⟩ := flush_spec h.inv hlen
  refine ⟨f', hr, ⟨hinv, ⟨h.growth.factor, h.growth.mono, h.growth.full⟩, h.few, h.free_live, h.live_lt, h.live_next,
    fun id d hd => ?_⟩,
    fun g' => construct_flushed hinv.number hinv.segments hinv.free hinv.laid hinv.toShape.start_lt g'
      hsize hhead hload⟩
  obtain ⟨hid, hd'⟩ := h.data id d hd
  obtain ⟨t, ht, hbt⟩ := h.find_data hd
  refine ⟨hid, ?_⟩
  rw [← hd', readBlock_eq h.inv.toCounts ht, readBlock_eq hinv.toCounts ht]
  exact hsame _ _ t ht hbt

end Steady

end BEpsilon.File
