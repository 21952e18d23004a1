import BEpsilon.BeTree.Messages
import Mathlib.Data.Finset.Card
import Mathlib.Data.Finset.Image
import Mathlib.Order.Interval.Finset.Nat

/-!
# BEpsilon.BeTree.Median — the median of two sorted inputs

`findMedianKey` finds a key that cuts two sorted inputs in halves: the parts below the cut hold half of
the items, with nothing above the key, and nothing in the other parts is below it.  A sorted array whose
keys come from one side of the cut is at most as long as the parts of that side together.
-/

namespace BEpsilon.BeTree

open Slots

variable {K : Type} [LinearOrder K] {a b : Slots K} {n m low high : ℕ} {mid k : K}

/-- `mid` cuts the first `n` keys of `a` and the first `m` keys of `b` in halves. -/
structure MedianCut (a : Slots K) (n : ℕ) (b : Slots K) (m : ℕ) (mid : K) (x y : ℕ) : Prop where
  half : x + y = (n + m + 1) / 2
  left_le : x ≤ n
  right_le : y ≤ m
  le_left : ∀ i < x, a i ≤ mid
  le_right : ∀ j < y, b j ≤ mid
  ge_left : ∀ i, x ≤ i → i < n → mid ≤ a i
  ge_right : ∀ j, y ≤ j → j < m → mid ≤ b j
  mem : (∃ i < x, a i = mid) ∨ ∃ j < y, b j = mid

theorem MedianCut.symm {x y : ℕ} (h : MedianCut a n b m mid x y) : MedianCut b m a n mid y x where
  half := by rw [Nat.add_comm, h.half, Nat.add_comm n]
  left_le := h.right_le
  right_le := h.left_le
  le_left := h.le_right
  le_right := h.le_left
  ge_left := h.ge_right
  ge_right := h.ge_left
  mem := h.mem.symm

section Search

variable [BoundedOrder K]

/-- Where neither neighbour is on the wrong side, the search has its cut. -/
theorem medianCut_of_le (ha : WeaklySorted a n) (hb : WeaklySorted b m) (hpos : 1 ≤ n + m) {x y : ℕ}
    (hhalf : x + y = (n + m + 1) / 2) (hx : x ≤ n) (hy : y ≤ m)
    (h₁ : (if x = 0 then ⊥ else a (x - 1)) ≤ if m ≤ y then ⊤ else b y)
    (h₂ : (if y = 0 then ⊥ else b (y - 1)) ≤ if n ≤ x then ⊤ else a x) :
    MedianCut a n b m (max (if x = 0 then ⊥ else a (x - 1)) (if y = 0 then ⊥ else b (y - 1))) x y where
  half := hhalf
  left_le := hx
  right_le := hy
  le_left i hi := by
    rw [if_neg (show x ≠ 0 by omega)]
    exact le_max_of_le_left (ha _ _ (by omega) (by omega))
  le_right j hj := by
    rw [if_neg (show y ≠ 0 by omega)]
    exact le_max_of_le_right (hb _ _ (by omega) (by omega))
  ge_left i hxi hi := by
    refine max_le ?_ ?_
    · split
      · exact bot_le
      · exact ha _ _ (by omega) hi
    · rw [if_neg (show ¬ n ≤ x by omega)] at h₂
      exact h₂.trans (ha _ _ hxi hi)
  ge_right j hyj hj := by
    refine max_le ?_ ?_
    · rw [if_neg (show ¬ m ≤ y by omega)] at h₁
      exact h₁.trans (hb _ _ hyj hj)
    · split
      · exact bot_le
      · exact hb _ _ (by omega) hj
  mem := by
    rcases Nat.eq_zero_or_pos x with rfl | hxp
    · refine .inr ⟨y - 1, by omega, ?_⟩
      rw [if_pos rfl, if_neg (show y ≠ 0 by omega), max_eq_right bot_le]
    · rcases Nat.eq_zero_or_pos y with rfl | hyp
      · refine .inl ⟨x - 1, by omega, ?_⟩
        rw [if_pos rfl, if_neg (show x ≠ 0 by omega), max_eq_left bot_le]
      · rw [if_neg (show x ≠ 0 by omega), if_neg (show y ≠ 0 by omega)]
        rcases max_cases (a (x - 1)) (b (y - 1)) with ⟨e, -⟩ | ⟨e, -⟩
        · exact .inl ⟨x - 1, by omega, e.symm⟩
        · exact .inr ⟨y - 1, by omega, e.symm⟩

/-- The binary search finds a cut.  Left of `low` the cut is too far left, and right of `high` too far
right. -/
theorem medianSearch_spec (ha : WeaklySorted a n) (hb : WeaklySorted b m) (hnm : n ≤ m) (hpos : 1 ≤ n + m)
    (hhigh : high ≤ n) (hlow : low ≤ high + 1)
    (hl : 0 < low → low - 1 < n ∧ a (low - 1) < b ((n + m + 1) / 2 - low))
    (hr : high < n → b ((n + m + 1) / 2 - (high + 1)) < a high) :
    ∃ mid x y, medianSearch a n b m low high = some mid ∧ MedianCut a n b m mid x y := by
  induction hk : high + 1 - low using Nat.strongRecOn generalizing low high with | ind k ih => ?_
  rw [medianSearch]
  by_cases h : low ≤ high
  · rw [dif_pos h]
    extract_lets x y leftX rightX leftY rightY
    have hxh : x ≤ high := by omega
    have hy : y ≤ m := by omega
    by_cases hP : leftX ≤ rightY
    · by_cases hQ : leftY ≤ rightX
      · rw [if_pos ⟨hP, hQ⟩]
        exact ⟨_, x, y, rfl, medianCut_of_le ha hb hpos (by omega) (by omega) hy hP hQ⟩
      · -- too far left
        rw [if_neg fun hc => hQ hc.2, dif_neg (not_lt.mpr hP)]
        have hxn : x < n := by
          by_contra hc
          exact hQ ((show rightX = ⊤ from if_pos (by omega)) ▸ le_top)
        have hyp : 0 < y := by
          by_contra hc
          exact hQ ((show leftY = ⊥ from if_pos (by omega)) ▸ bot_le)
        have hlt : a x < b (y - 1) := by
          have := not_le.mp hQ
          rwa [show leftY = b (y - 1) from if_neg (by omega), show rightX = a x from if_neg (by omega)]
            at this
        refine ih (high + 1 - (x + 1)) (by omega) hhigh (by omega) (fun _ => ⟨by omega, ?_⟩) hr rfl
        rw [Nat.add_sub_cancel, show (n + m + 1) / 2 - (x + 1) = y - 1 by omega]
        exact hlt
    · -- too far right
      rw [if_neg fun hc => hP hc.1, dif_pos (not_le.mp hP)]
      have hxp : 0 < x := by
        by_contra hc
        exact hP ((show leftX = ⊥ from if_pos (by omega)) ▸ bot_le)
      have hym : y < m := by
        by_contra hc
        exact hP ((show rightY = ⊤ from if_pos (by omega)) ▸ le_top)
      have hlt : b y < a (x - 1) := by
        have := not_le.mp hP
        rwa [show leftX = a (x - 1) from if_neg (by omega), show rightY = b y from if_neg (by omega)]
          at this
      refine ih (x - 1 + 1 - low) (by omega) (by omega) (by omega) hl (fun _ => ?_) rfl
      rw [show (n + m + 1) / 2 - (x - 1 + 1) = y by omega]
      exact hlt
  · -- the two sides contradict each other
    obtain rfl : low = high + 1 := by omega
    obtain ⟨hn, hlt⟩ := hl (by omega)
    rw [Nat.add_sub_cancel] at hn hlt
    exact absurd hlt (hr hn).asymm

theorem findMedianKey_spec (ha : WeaklySorted a n) (hb : WeaklySorted b m) (hpos : 1 ≤ n + m) :
    ∃ mid x y, findMedianKey a n b m = some mid ∧ MedianCut a n b m mid x y := by
  unfold findMedianKey
  split
  next h =>
    obtain ⟨mid, x, y, he, hc⟩ := medianSearch_spec hb ha h.le (by omega) le_rfl
      (Nat.zero_le (m + 1)) (fun h => by omega) fun h => by omega
    exact ⟨mid, y, x, he, hc.symm⟩
  next h =>
    exact medianSearch_spec ha hb (by omega) hpos le_rfl (by omega) (fun h => by omega)
      fun h => by omega

end Search

/-! ### What lies on the two sides of a cut -/

/-- Sorted keys that all occur in two ranges are not more than these. -/
theorem size_le_of_keys {c : Slots K} {s i₀ i₁ j₀ j₁ : ℕ} (hc : Sorted c s)
    (h : ∀ t < s, (∃ i, i₀ ≤ i ∧ i < i₁ ∧ a i = c t) ∨ ∃ j, j₀ ≤ j ∧ j < j₁ ∧ b j = c t) :
    s ≤ (i₁ - i₀) + (j₁ - j₀) := by
  classical
  have hsub : (Finset.range s).image c ⊆
      (Finset.Ico i₀ i₁).image a ∪ (Finset.Ico j₀ j₁).image b := by
    intro x hx
    obtain ⟨t, ht, rfl⟩ := Finset.mem_image.mp hx
    rcases h t (Finset.mem_range.mp ht) with ⟨i, h₁, h₂, e⟩ | ⟨j, h₁, h₂, e⟩
    · exact Finset.mem_union_left _ (Finset.mem_image.mpr ⟨i, Finset.mem_Ico.mpr ⟨h₁, h₂⟩, e⟩)
    · exact Finset.mem_union_right _ (Finset.mem_image.mpr ⟨j, Finset.mem_Ico.mpr ⟨h₁, h₂⟩, e⟩)
  have hcard : ((Finset.range s).image c).card = s := by
    rw [Finset.card_image_of_injOn, Finset.card_range]
    intro i hi j hj e
    exact hc.inj (Finset.mem_range.mp hi) (Finset.mem_range.mp hj) e
  calc s = ((Finset.range s).image c).card := hcard.symm
    _ ≤ _ := Finset.card_le_card hsub
    _ ≤ ((Finset.Ico i₀ i₁).image a).card + ((Finset.Ico j₀ j₁).image b).card :=
        Finset.card_union_le _ _
    _ ≤ _ := Nat.add_le_add (Finset.card_image_le.trans_eq (Nat.card_Ico _ _))
        (Finset.card_image_le.trans_eq (Nat.card_Ico _ _))

namespace MedianCut

variable {x y s : ℕ} {c : Slots K}

/-- At most half of the items, rounded up, are at or below the key. -/
theorem size_le (h : MedianCut a n b m mid x y) (hc : Sorted c s)
    (hk : ∀ t < s, c t ≤ mid ∧ ((∃ i < n, a i = c t) ∨ ∃ j < m, b j = c t)) :
    s ≤ (n + m + 1) / 2 := by
  rw [← h.half]
  -- an item of an upper part is the key itself, which occurs in a lower part as well
  have hmid : ∀ t < s, c t = mid →
      (∃ i, 0 ≤ i ∧ i < x ∧ a i = c t) ∨ ∃ j, 0 ≤ j ∧ j < y ∧ b j = c t := by
    intro t _ e
    rcases h.mem with ⟨i, hi, e'⟩ | ⟨j, hj, e'⟩
    · exact .inl ⟨i, by omega, hi, e'.trans e.symm⟩
    · exact .inr ⟨j, by omega, hj, e'.trans e.symm⟩
  refine (show s ≤ (x - 0) + (y - 0) from size_le_of_keys (a := a) (b := b) hc fun t ht => ?_)
  obtain ⟨hle, ⟨i, hi, e⟩ | ⟨j, hj, e⟩⟩ := hk t ht
  · rcases lt_or_ge i x with hix | hix
    · exact .inl ⟨i, by omega, hix, e⟩
    · exact hmid t ht (le_antisymm hle (e ▸ h.ge_left i hix hi))
  · rcases lt_or_ge j y with hjy | hjy
    · exact .inr ⟨j, by omega, hjy, e⟩
    · exact hmid t ht (le_antisymm hle (e ▸ h.ge_right j hjy hj))

/-- At most half of the items are above the key. -/
theorem size_gt_le (h : MedianCut a n b m mid x y) (hc : Sorted c s)
    (hk : ∀ t < s, mid < c t ∧ ((∃ i < n, a i = c t) ∨ ∃ j < m, b j = c t)) :
    s ≤ (n + m) / 2 := by
  have hle : s ≤ (n - x) + (m - y) := by
    refine size_le_of_keys (a := a) (b := b) hc fun t ht => ?_
    obtain ⟨hlt, ⟨i, hi, e⟩ | ⟨j, hj, e⟩⟩ := hk t ht
    · refine .inl ⟨i, not_lt.mp fun hc => ?_, hi, e⟩
      exact absurd (h.le_left i hc) (not_le.mpr (e ▸ hlt))
    · refine .inr ⟨j, not_lt.mp fun hc => ?_, hj, e⟩
      exact absurd (h.le_right j hc) (not_le.mpr (e ▸ hlt))
  have := h.half
  have := h.left_le
  have := h.right_le
  omega

/-- Some item is above the key. -/
theorem exists_above (h : MedianCut a n b m mid x y) (ha : Sorted a n) (hb : Sorted b m)
    (h4 : 4 ≤ n + m) : (∃ i < n, mid < a i) ∨ ∃ j < m, mid < b j := by
  have hhalf := h.half
  have hx := h.left_le
  have hy := h.right_le
  rcases Nat.lt_or_ge (x + 1) n with hx' | hx'
  · -- two items of the first input are in its upper part
    exact .inl ⟨x + 1, hx', (h.ge_left x le_rfl (by omega)).trans_lt (ha _ _ (by omega) hx')⟩
  rcases Nat.lt_or_ge (y + 1) m with hy' | hy'
  · exact .inr ⟨y + 1, hy', (h.ge_right y le_rfl (by omega)).trans_lt (hb _ _ (by omega) hy')⟩
  -- one item is left on each side, and at most one of them is the key
  have hxn : x + 1 = n := by omega
  have hym : y + 1 = m := by omega
  rcases h.mem with ⟨i, hi, e⟩ | ⟨j, hj, e⟩
  · exact .inl ⟨x, by omega, e ▸ ha _ _ hi (by omega)⟩
  · exact .inr ⟨y, by omega, e ▸ hb _ _ hj (by omega)⟩

/-- The key is one of the items. -/
theorem mem_items (h : MedianCut a n b m mid x y) : (∃ i < n, a i = mid) ∨ ∃ j < m, b j = mid := by
  have hx := h.left_le
  have hy := h.right_le
  rcases h.mem with ⟨i, hi, e⟩ | ⟨j, hj, e⟩
  · exact .inl ⟨i, by omega, e⟩
  · exact .inr ⟨j, by omega, e⟩

end MedianCut

end BEpsilon.BeTree
