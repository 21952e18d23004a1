import BEpsilon.File.SegmentManager
import Mathlib.Tactic.Linarith

/-!
# BEpsilon.File.Layout — ids and offsets

Two facts the allocator rests on.  An id keeps its segment and its block apart as long as the segment is
below `2 ^ 16` and the block below `2 ^ 48`; `index_packID` also says what becomes of a block beyond
that.  `Laid` says that the segments follow one another in the file; two blocks of a laid list then
share no byte with each other or with a header.
-/

namespace BEpsilon.File

/-- `2 ^ 16`, the number of segments that an id can tell apart. -/
def segmentLimit : ℕ := 65536

/-- `2 ^ 48`, the number of blocks of a segment that an id can tell apart. -/
def blockLimit : ℕ := 281474976710656

namespace SegmentManager

variable {i b : ℕ}

theorem shiftRight_48 (n : ℕ) : n >>> 48 = n / blockLimit := Nat.shiftRight_eq_div_pow n 48

theorem and_mask_48 (n : ℕ) : n &&& 281474976710655 = n % blockLimit :=
  Nat.and_two_pow_sub_one_eq_mod n 48

theorem toNat_getIndexFromID (id : UInt64) : getIndexFromID id = id.toNat / blockLimit := by
  unfold getIndexFromID
  rw [UInt64.toNat_shiftRight]
  exact shiftRight_48 _

theorem toNat_getBlockFromID (id : UInt64) : getBlockFromID id = id.toNat % blockLimit := by
  unfold getBlockFromID
  rw [UInt64.toNat_and]
  exact and_mask_48 _

theorem getIndexFromID_lt (id : UInt64) : getIndexFromID id < segmentLimit := by
  have h : id.toNat < 18446744073709551616 := id.toNat_lt
  rw [toNat_getIndexFromID]
  unfold segmentLimit blockLimit
  omega

theorem getBlockFromID_lt (id : UInt64) : getBlockFromID id < blockLimit := by
  rw [toNat_getBlockFromID]
  exact Nat.mod_lt _ (by decide)

/-- The number an id is. -/
theorem toNat_packID (hi : i < segmentLimit) (hb : b < UInt64.size) :
    (packID i b).toNat = i * blockLimit ||| b := by
  unfold segmentLimit at hi
  have hb' : b % 18446744073709551616 = b := Nat.mod_eq_of_lt hb
  have hi' : i % 18446744073709551616 = i := Nat.mod_eq_of_lt (by omega)
  have hs : i <<< 48 % 18446744073709551616 = i * blockLimit := by
    rw [Nat.shiftLeft_eq]
    unfold blockLimit
    omega
  unfold packID
  simp [hb', hi', hs]

/-- The segment of an id: a block number too large for its field runs into it. -/
theorem index_packID (hi : i < segmentLimit) (hb : b < UInt64.size) :
    getIndexFromID (packID i b) = i ||| b / blockLimit := by
  have hor : (i * blockLimit ||| b) >>> 48 = (i * blockLimit) >>> 48 ||| b >>> 48 :=
    Nat.shiftRight_or_distrib ..
  rw [toNat_getIndexFromID, toNat_packID hi hb, ← shiftRight_48, hor, shiftRight_48, shiftRight_48,
    Nat.mul_div_cancel _ (by decide)]

/-- The block of an id: the low part of the number. -/
theorem block_packID (hi : i < segmentLimit) (hb : b < UInt64.size) :
    getBlockFromID (packID i b) = b % blockLimit := by
  have hor : (i * blockLimit ||| b) % blockLimit = i * blockLimit % blockLimit ||| b % blockLimit :=
    @Nat.or_mod_two_pow (i * blockLimit) b 48
  rw [toNat_getBlockFromID, toNat_packID hi hb, hor, Nat.mul_mod_left, Nat.zero_or]

/-- An id is the pack of its parts. -/
theorem packID_of_id (id : UInt64) : packID (getIndexFromID id) (getBlockFromID id) = id := by
  apply UInt64.toNat_inj.mp
  have hlt : getBlockFromID id < UInt64.size := lt_trans (getBlockFromID_lt id) (by decide)
  have hor : getIndexFromID id <<< 48 + getBlockFromID id = getIndexFromID id <<< 48 ||| getBlockFromID id :=
    Nat.shiftLeft_add_eq_or_of_lt (getBlockFromID_lt id) (getIndexFromID id)
  have hsl : getIndexFromID id <<< 48 = getIndexFromID id * blockLimit := Nat.shiftLeft_eq _ 48
  rw [toNat_packID (getIndexFromID_lt id) hlt, ← hsl, ← hor, hsl, toNat_getIndexFromID,
    toNat_getBlockFromID, Nat.mul_comm]
  exact Nat.div_add_mod ..

/-- An id in range gives back the segment and the block it was made from. -/
theorem index_packID_of_lt (hi : i < segmentLimit) (hb : b < blockLimit) :
    getIndexFromID (packID i b) = i := by
  rw [index_packID hi (lt_trans hb (by decide)), Nat.div_eq_of_lt hb, Nat.or_zero]

theorem block_packID_of_lt (hi : i < segmentLimit) (hb : b < blockLimit) :
    getBlockFromID (packID i b) = b := by
  rw [block_packID hi (lt_trans hb (by decide)), Nat.mod_eq_of_lt hb]

end SegmentManager

/-! ## Offsets -/

/-- The segments of the list follow one another from offset `o` on. -/
def Laid (B : BlockSize) : ℕ → List Segment → Prop
  | _, [] => True
  | o, s :: l => s.fileOffset = o ∧ Laid B (o + s.extent B) l

/-- Where a laid list ends. -/
def ending (B : BlockSize) : ℕ → List Segment → ℕ
  | o, [] => o
  | o, s :: l => ending B (o + s.extent B) l

variable {B : BlockSize} {o i j a b : ℕ} {l : List Segment} {s t : Segment}

theorem le_ending : ∀ (o : ℕ) (l : List Segment), o ≤ ending B o l
  | _, [] => le_rfl
  | _, _ :: l => le_trans (Nat.le_add_right _ _) (le_ending _ l)

theorem ending_append (o : ℕ) (l : List Segment) (s : Segment) :
    ending B o (l ++ [s]) = ending B o l + s.extent B := by
  induction l generalizing o with
  | nil => rfl
  | cons t l ih => exact ih _

theorem Laid.append (h : Laid B o l) (hs : s.fileOffset = ending B o l) : Laid B o (l ++ [s]) := by
  induction l generalizing o with
  | nil => exact ⟨hs, trivial⟩
  | cons t l ih => exact ⟨h.1, ih h.2 hs⟩

theorem Laid.getLast (h : Laid B o l) (hs : l.getLast? = some s) :
    s.fileOffset + s.extent B = ending B o l := by
  induction l generalizing o with
  | nil => cases hs
  | cons t l ih =>
    cases l with
    | nil =>
      obtain rfl : t = s := Option.some.inj hs
      rw [h.1]
      rfl
    | cons u l => exact ih h.2 (by rwa [List.getLast?_cons_cons] at hs)

/-- A segment of a laid list lies between its ends. -/
theorem Laid.bounds (h : Laid B o l) (hs : l[i]? = some s) :
    o ≤ s.fileOffset ∧ s.fileOffset + s.extent B ≤ ending B o l := by
  induction l generalizing o i with
  | nil => cases hs
  | cons t l ih =>
    cases i with
    | zero =>
      cases hs
      rw [h.1]
      exact ⟨le_rfl, le_ending _ l⟩
    | succ i =>
      obtain ⟨h₁, h₂⟩ := ih h.2 hs
      exact ⟨le_trans (Nat.le_add_right _ _) h₁, h₂⟩

/-- An earlier segment ends before a later one starts. -/
theorem Laid.before (h : Laid B o l) (hs : l[i]? = some s) (ht : l[j]? = some t) (hij : i < j) :
    s.fileOffset + s.extent B ≤ t.fileOffset := by
  induction l generalizing o i j with
  | nil => cases hs
  | cons u l ih =>
    obtain ⟨j, rfl⟩ := Nat.exists_eq_succ_of_ne_zero (Nat.ne_of_gt (Nat.zero_lt_of_lt hij))
    cases i with
    | zero =>
      cases hs
      rw [h.1]
      exact (h.2.bounds ht).1
    | succ i => exact ih h.2 hs ht (Nat.lt_of_succ_lt_succ hij)

/-- Two segments are disjoint. -/
theorem Laid.disjoint (h : Laid B o l) (hs : l[i]? = some s) (ht : l[j]? = some t) (hij : i ≠ j) :
    s.fileOffset + s.extent B ≤ t.fileOffset ∨
      t.fileOffset + t.extent B ≤ s.fileOffset := by
  rcases Nat.lt_or_gt_of_ne hij with hlt | hgt
  · exact .inl (h.before hs ht hlt)
  · exact .inr (h.before ht hs hgt)

/-- Changing a header keeps the layout as long as it keeps the size. -/
theorem ending_set (hs : l[i]? = some s) (ha : t.header.allocatedBlocks = s.header.allocatedBlocks) :
    ending B o (l.set i t) = ending B o l := by
  have htotal : t.extent B = s.extent B := by
    unfold Segment.extent
    rw [ha]
  induction l generalizing o i with
  | nil => cases hs
  | cons u l ih =>
    cases i with
    | zero =>
      cases hs
      rw [List.set_cons_zero, ending, ending, htotal]
    | succ i => exact ih hs

theorem Laid.set (h : Laid B o l) (hs : l[i]? = some s) (ho : t.fileOffset = s.fileOffset)
    (ha : t.header.allocatedBlocks = s.header.allocatedBlocks) : Laid B o (l.set i t) := by
  have htotal : t.extent B = s.extent B := by
    unfold Segment.extent
    rw [ha]
  induction l generalizing o i with
  | nil => cases hs
  | cons u l ih =>
    cases i with
    | zero =>
      cases hs
      refine ⟨ho.trans h.1, ?_⟩
      rw [htotal]
      exact h.2
    | succ i => exact ⟨h.1, ih h.2 hs⟩

/-- Two different blocks share no byte. -/
theorem Laid.blocks_disjoint (h : Laid B o l) (hs : l[i]? = some s) (ht : l[j]? = some t)
    (ha : a < s.header.allocatedBlocks) (hb : b < t.header.allocatedBlocks) (hne : (i, a) ≠ (j, b)) :
    s.start B a + B.bytes ≤ t.start B b ∨ t.start B b + B.bytes ≤ s.start B a := by
  by_cases hij : i = j
  · subst hij
    obtain rfl : s = t := Option.some.inj (hs.symm.trans ht)
    exact Segment.start_disjoint fun hab => hne (by rw [hab])
  · have h₁ := Segment.start_add_le_end (B := B) ha
    have h₂ := Segment.start_add_le_end (B := B) hb
    have h₃ := Segment.le_start (B := B) (s := s) a
    have h₄ := Segment.le_start (B := B) (s := t) b
    rcases h.disjoint hs ht hij with hd | hd
    · exact .inl (by omega)
    · exact .inr (by omega)

/-- A block shares no byte with the header of a segment. -/
theorem Laid.block_header_disjoint (h : Laid B o l) (hs : l[i]? = some s) (ht : l[j]? = some t)
    (ha : a < s.header.allocatedBlocks) :
    s.start B a + B.bytes ≤ t.fileOffset ∨ t.fileOffset + B.bytes ≤ s.start B a := by
  have h₁ := Segment.start_add_le_end (B := B) ha
  have h₂ := Segment.le_start (B := B) (s := s) a
  by_cases hij : i = j
  · subst hij
    obtain rfl : s = t := Option.some.inj (hs.symm.trans ht)
    exact .inr h₂
  · have h₃ : B.bytes ≤ t.extent B := Nat.le_add_right _ _
    rcases h.disjoint hs ht hij with hd | hd
    · exact .inl (by omega)
    · exact .inr (by omega)

end BEpsilon.File
