import BEpsilon.Lib.Ranks
import BEpsilon.BeTree.LeafSlots
import BEpsilon.BeTree.Median
import Mathlib.Order.Fin.Basic

/-!
# BEpsilon.BeTree.MedianRank — `findMedianKey` finds the lower median

A cut of two sorted inputs in halves decides the rank of its key: fewer than half of the items, rounded
up, are below it, and the half in the lower parts is not above it.  The keys of the inputs may repeat, and
the bounds `0` and `SIZE_MAX` of the key type are keys like any other.  Beside the result stand the facts
that the search on machine integers rests on: no difference that it takes is of a smaller and a larger
number, and it looks at items of the inputs only.
-/

namespace BEpsilon.BeTree

open Slots

variable {K : Type} [LinearOrder K] {a b : Slots K} {n m : ℕ} {mid : K}

namespace MedianCut

variable {x y : ℕ}

/-- Half of the items, rounded up, are not above the key. -/
theorem half_le_countP (h : MedianCut a n b m mid x y) :
    (n + m + 1) / 2 ≤ (toList a n ++ toList b m).countP (· ≤ mid) := by
  have hx : x ≤ (toList a n).countP (· ≤ mid) :=
    le_countP_toList h.left_le fun i hi => decide_eq_true (h.le_left i hi)
  have hy : y ≤ (toList b m).countP (· ≤ mid) :=
    le_countP_toList h.right_le fun j hj => decide_eq_true (h.le_right j hj)
  have hhalf := h.half
  rw [List.countP_append]
  omega

/-- Fewer are below it: these are in the lower parts, where the key itself is as well. -/
theorem countP_lt_half (h : MedianCut a n b m mid x y) :
    (toList a n ++ toList b m).countP (· < mid) < (n + m + 1) / 2 := by
  have hx : (toList a n).countP (· < mid) ≤ (toList a x).countP (· < mid) :=
    countP_toList_le h.left_le fun i h₁ h₂ => decide_eq_false (not_lt.mpr (h.ge_left i h₁ h₂))
  have hy : (toList b m).countP (· < mid) ≤ (toList b y).countP (· < mid) :=
    countP_toList_le h.right_le fun j h₁ h₂ => decide_eq_false (not_lt.mpr (h.ge_right j h₁ h₂))
  -- one item of a list fails the test
  have hfew : ∀ {c : Slots K} {z : ℕ}, (∃ i < z, c i = mid) → (toList c z).countP (· < mid) < z := by
    intro c z ⟨i, hi, e⟩
    have hmem : mid ∈ toList c z := List.mem_map.mpr ⟨i, List.mem_range.mpr hi, e⟩
    have hlt : (toList c z).countP (· < mid) < (toList c z).length :=
      List.countP_lt_length_iff.mpr ⟨mid, hmem, by simp⟩
    rwa [length_toList] at hlt
  have hax : (toList a x).countP (· < mid) ≤ x := List.countP_le_length.trans_eq (length_toList a x)
  have hby : (toList b y).countP (· < mid) ≤ y := List.countP_le_length.trans_eq (length_toList b y)
  have hhalf := h.half
  rw [List.countP_append]
  rcases h.mem with hm | hm
  · have hlt := hfew hm
    omega
  · have hlt := hfew hm
    omega

end MedianCut

/-! ### The merged inputs -/

/-- The items of two inputs as one list in order. -/
def mergedKeys (a : Slots K) (n : ℕ) (b : Slots K) (m : ℕ) : List K := (toList a n).merge (toList b m)

theorem mergedKeys_perm : (mergedKeys a n b m).Perm (toList a n ++ toList b m) :=
  List.merge_perm_append _

theorem pairwise_mergedKeys (ha : WeaklySorted a n) (hb : WeaklySorted b m) :
    (mergedKeys a n b m).Pairwise (· ≤ ·) := by
  have h : (mergedKeys a n b m).Pairwise fun x y => decide (x ≤ y) = true := by
    refine List.pairwise_merge ?_ ?_ (toList a n) (toList b m) ?_ ?_
    · intro x y z hxy hyz
      exact decide_eq_true ((of_decide_eq_true hxy).trans (of_decide_eq_true hyz))
    · intro x y
      simpa using le_total x y
    · exact (pairwise_toList ha).imp fun hle => decide_eq_true hle
    · exact (pairwise_toList hb).imp fun hle => decide_eq_true hle
  exact h.imp fun hle => of_decide_eq_true hle

section Search

variable [BoundedOrder K]

/-! ### The differences of sizes -/

/-- The differences that `findMedianKey` takes for the cut `partX`, as the two numbers of each. -/
def cutDifferences (first : Slots K) (firstSize : ℕ) (second : Slots K) (secondSize : ℕ) (partX : ℕ) :
    List (ℕ × ℕ) :=
  let half := (firstSize + secondSize + 1) / 2
  let partY := half - partX
  let leftX := if partX = 0 then ⊥ else first (partX - 1)
  let rightY := if secondSize ≤ partY then ⊤ else second partY
  (half, partX) :: ((if partX = 0 then [] else [(partX, 1)]) ++ (if partY = 0 then [] else [(partY, 1)]) ++
    if rightY < leftX then [(partX, 1)] else [])

/-- All differences that `findMedianKey` takes. -/
def medianDifferences (first : Slots K) (firstSize : ℕ) (second : Slots K) (secondSize : ℕ) :
    List (ℕ × ℕ) :=
  if secondSize < firstSize then
    (medianTrace second secondSize first firstSize 0 secondSize).2.flatMap
      (cutDifferences second secondSize first firstSize)
  else
    (medianTrace first firstSize second secondSize 0 firstSize).2.flatMap
      (cutDifferences first firstSize second secondSize)

theorem le_of_mem_cutDifferences {x : ℕ} (hx : x ≤ (n + m + 1) / 2) {d : ℕ × ℕ}
    (hd : d ∈ cutDifferences a n b m x) : d.2 ≤ d.1 := by
  unfold cutDifferences at hd
  extract_lets half partY leftX rightY at hd
  rcases List.mem_cons.mp hd with rfl | hd
  · exact hx
  rcases List.mem_append.mp hd with hd | hd
  · rcases List.mem_append.mp hd with hd | hd
    · split at hd
      next => cases hd
      next hne =>
        rw [List.mem_singleton.mp hd]
        exact Nat.one_le_iff_ne_zero.mpr hne
    · split at hd
      next => cases hd
      next hne =>
        rw [List.mem_singleton.mp hd]
        exact Nat.one_le_iff_ne_zero.mpr hne
  · split at hd
    next hlt =>
      -- a cut at the left end is never too far right
      rw [List.mem_singleton.mp hd]
      refine Nat.one_le_iff_ne_zero.mpr fun h0 => ?_
      rw [show leftX = ⊥ from if_pos h0] at hlt
      exact not_lt_bot hlt
    next => cases hd

/-- The search ends, after one round for each item of the shorter input and one more at most. -/
theorem length_medianTrace {low high : ℕ} : (medianTrace a n b m low high).2.length ≤ high + 1 - low := by
  induction hk : high + 1 - low using Nat.strongRecOn generalizing low high with | ind k ih => ?_
  rw [medianTrace]
  by_cases h : low ≤ high
  · rw [dif_pos h]
    extract_lets x y leftX rightX leftY rightY left right
    by_cases hc : leftX ≤ rightY ∧ leftY ≤ rightX
    · rw [if_pos hc, List.length_singleton]
      omega
    · rw [if_neg hc]
      by_cases hlt : rightY < leftX
      · rw [dif_pos hlt, List.length_cons]
        have hxp : 0 < x := by
          by_contra h0
          rw [show leftX = ⊥ from if_pos (by omega)] at hlt
          exact not_lt_bot hlt
        have hlen : left.2.length ≤ _ := ih (x - 1 + 1 - low) (by omega) rfl
        omega
      · rw [dif_neg hlt, List.length_cons]
        have hlen : right.2.length ≤ _ := ih (high + 1 - (x + 1)) (by omega) rfl
        omega
  · rw [dif_neg h]
    exact Nat.zero_le _

/-- The cuts of the shorter input that `findMedianKey` tries, one in each round. -/
def medianCuts (first : Slots K) (firstSize : ℕ) (second : Slots K) (secondSize : ℕ) : List ℕ :=
  if secondSize < firstSize then (medianTrace second secondSize first firstSize 0 secondSize).2
  else (medianTrace first firstSize second secondSize 0 firstSize).2

theorem length_medianCuts : (medianCuts a n b m).length ≤ min n m + 1 := by
  unfold medianCuts
  split
  next h =>
    have hlen : (medianTrace b m a n 0 m).2.length ≤ m + 1 - 0 := length_medianTrace
    omega
  next h =>
    have hlen : (medianTrace a n b m 0 n).2.length ≤ n + 1 - 0 := length_medianTrace
    omega

theorem le_of_mem_medianDifferences {d : ℕ × ℕ} (hd : d ∈ medianDifferences a n b m) : d.2 ≤ d.1 := by
  unfold medianDifferences at hd
  split at hd
  next h =>
    obtain ⟨x, hx, hd⟩ := List.mem_flatMap.mp hd
    have hle := medianTrace_spec.2 x hx
    exact le_of_mem_cutDifferences (by omega) hd
  next h =>
    obtain ⟨x, hx, hd⟩ := List.mem_flatMap.mp hd
    have hle := medianTrace_spec.2 x hx
    exact le_of_mem_cutDifferences (by omega) hd

/-! ### The median -/

/-- The median of two sorted inputs is found: the search succeeds with the key at position `⌈T / 2⌉` of
the merged inputs, after no more rounds than the shorter input has places to cut; it looks at items only,
and takes no difference below zero. -/
theorem findMedianKey_lowerMedian (ha : WeaklySorted a n) (hb : WeaklySorted b m) (hpos : 1 ≤ n + m) :
    (∃ mid, findMedianKey a n b m = some mid ∧
      (mergedKeys a n b m)[(n + m + 1) / 2 - 1]? = some mid ∧
      (toList a n ++ toList b m).countP (· < mid) < (n + m + 1) / 2 ∧
      (n + m + 1) / 2 ≤ (toList a n ++ toList b m).countP (· ≤ mid)) ∧
    (medianCuts a n b m).length ≤ min n m + 1 ∧
    (∀ s ∈ (medianSlots a n b m).1, s < n) ∧ (∀ s ∈ (medianSlots a n b m).2, s < m) ∧
    ∀ d ∈ medianDifferences a n b m, d.2 ≤ d.1 := by
  obtain ⟨mid, x, y, he, hcut⟩ := findMedianKey_spec ha hb hpos
  have hlt := hcut.countP_lt_half
  have hle := hcut.half_le_countP
  have hrank : (mergedKeys a n b m)[(n + m + 1) / 2 - 1]? = some mid := by
    refine getElem?_of_counts (pairwise_mergedKeys ha hb) ?_ ?_
    · rwa [mergedKeys_perm.countP_eq]
    · rwa [mergedKeys_perm.countP_eq]
  exact ⟨⟨mid, he, hrank, hlt, hle⟩, length_medianCuts, medianSlots_lt.1, medianSlots_lt.2,
    fun d hd => le_of_mem_medianDifferences hd⟩

/-- A leaf with the keys `0`, `7`, `7` and messages for `7`, `7`, `SIZE_MAX`, `SIZE_MAX`. -/
theorem findMedianKey_lowerMedian_equalKeys :
    findMedianKey (fun i => if i = 0 then (0 : Fin (2 ^ 64)) else 7) 3
      (fun j => if j < 2 then 7 else Fin.last (2 ^ 64 - 1)) 4 = some 7 := by
  have ha : WeaklySorted (fun i => if i = 0 then (0 : Fin (2 ^ 64)) else 7) 3 := by
    intro i j hij hj
    dsimp only
    split
    · exact Fin.zero_le _
    · rw [if_neg (by omega)]
  have hb : WeaklySorted (fun j => if j < 2 then (7 : Fin (2 ^ 64)) else Fin.last (2 ^ 64 - 1)) 4 := by
    intro i j hij hj
    dsimp only
    split
    · split
      · exact le_rfl
      · exact Fin.le_last _
    · rw [if_neg (by omega)]
  obtain ⟨⟨mid, h, hrank, -⟩, -⟩ := findMedianKey_lowerMedian ha hb (by decide)
  have hmerged : (mergedKeys (fun i => if i = 0 then (0 : Fin (2 ^ 64)) else 7) 3
      (fun j => if j < 2 then 7 else Fin.last (2 ^ 64 - 1)) 4)[(3 + 4 + 1) / 2 - 1]? = some 7 := by
    simp [mergedKeys, toList, List.range_succ]
  rw [hmerged] at hrank
  rw [h, hrank]

end Search

end BEpsilon.BeTree
