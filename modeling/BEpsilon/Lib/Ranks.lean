import BEpsilon.Lib.Slots
import Mathlib.Order.Defs.LinearOrder
import Mathlib.Data.List.Count

/-!
# BEpsilon.Lib.Ranks — the element of a given rank

In a list in order, the element at position `p` (from one) is the one that has fewer than `p` smaller
elements and at least `p` elements that are not larger.  A live prefix that a cut divides by a property
has as many slots with the property as there are below the cut.
-/

namespace BEpsilon

variable {α : Type}

section Order

variable [LinearOrder α] {l : List α} {x : α} {p : ℕ}

/-- Fewer than `p` smaller elements: from position `p` on, nothing is smaller. -/
theorem le_getElem_of_countP_lt (hl : l.Pairwise (· ≤ ·)) (hlt : l.countP (· < x) < p)
    (hp : p - 1 < l.length) : x ≤ l[p - 1] := by
  by_contra hc
  rw [not_le] at hc
  have hall : ∀ y ∈ l.take p, y < x := by
    intro y hy
    obtain ⟨i, hi, rfl⟩ := List.mem_iff_getElem.mp hy
    rw [List.length_take] at hi
    rw [List.getElem_take]
    refine lt_of_le_of_lt ?_ hc
    rcases (show i ≤ p - 1 by omega).lt_or_eq with h | rfl
    · exact List.pairwise_iff_getElem.mp hl i (p - 1) (by omega) hp h
    · exact le_rfl
  have hcount : (l.take p).countP (· < x) = (l.take p).length :=
    List.countP_eq_length.mpr fun y hy => decide_eq_true (hall y hy)
  have hle : (l.take p).countP (· < x) ≤ l.countP (· < x) := (List.take_sublist p l).countP_le
  rw [hcount, List.length_take] at hle
  omega

/-- At least `p` elements that are not larger: up to position `p`, nothing is larger. -/
theorem getElem_le_of_le_countP (hl : l.Pairwise (· ≤ ·)) (hle : p ≤ l.countP (· ≤ x)) (h0 : 1 ≤ p)
    (hp : p - 1 < l.length) : l[p - 1] ≤ x := by
  by_contra hc
  rw [not_le] at hc
  have hall : ∀ y ∈ l.drop (p - 1), ¬ y ≤ x := by
    intro y hy
    obtain ⟨i, hi, rfl⟩ := List.mem_iff_getElem.mp hy
    rw [List.length_drop] at hi
    rw [List.getElem_drop, not_le]
    refine lt_of_lt_of_le hc ?_
    rcases Nat.eq_zero_or_pos i with rfl | h
    · exact le_rfl
    · exact List.pairwise_iff_getElem.mp hl (p - 1) (p - 1 + i) hp (by omega) (by omega)
  have hzero : (l.drop (p - 1)).countP (· ≤ x) = 0 :=
    List.countP_eq_zero.mpr fun y hy => by simpa using hall y hy
  have hsplit : l.countP (· ≤ x) = (l.take (p - 1)).countP (· ≤ x) + (l.drop (p - 1)).countP (· ≤ x) := by
    rw [← List.countP_append, List.take_append_drop]
  have htake : (l.take (p - 1)).countP (· ≤ x) ≤ (l.take (p - 1)).length := List.countP_le_length
  rw [List.length_take] at htake
  omega

/-- The element of rank `p`. -/
theorem getElem?_of_counts (hl : l.Pairwise (· ≤ ·)) (hlt : l.countP (· < x) < p)
    (hle : p ≤ l.countP (· ≤ x)) : l[p - 1]? = some x := by
  have hlen : l.countP (· ≤ x) ≤ l.length := List.countP_le_length
  have hp : p - 1 < l.length := by omega
  rw [List.getElem?_eq_getElem hp]
  exact congrArg some (le_antisymm (getElem_le_of_le_countP hl hle (by omega) hp)
    (le_getElem_of_countP_lt hl hlt hp))

end Order

namespace Slots

variable {a : Slots α} {n x : ℕ} {q : α → Bool}

theorem le_countP_toList (hx : x ≤ n) (h : ∀ i < x, q (a i) = true) : x ≤ (toList a n).countP q := by
  obtain ⟨d, rfl⟩ := Nat.exists_eq_add_of_le hx
  have hall : (toList a x).countP q = (toList a x).length := by
    refine List.countP_eq_length.mpr fun y hy => ?_
    obtain ⟨i, hi, rfl⟩ := List.mem_map.mp hy
    exact h i (List.mem_range.mp hi)
  rw [length_toList] at hall
  rw [toList_add, List.countP_append, hall]
  exact Nat.le_add_right _ _

theorem countP_toList_le (hx : x ≤ n) (h : ∀ i, x ≤ i → i < n → q (a i) = false) :
    (toList a n).countP q ≤ (toList a x).countP q := by
  obtain ⟨d, rfl⟩ := Nat.exists_eq_add_of_le hx
  have hnone : (toList (fun i => a (x + i)) d).countP q = 0 := by
    refine List.countP_eq_zero.mpr fun y hy => ?_
    obtain ⟨i, hi, rfl⟩ := List.mem_map.mp hy
    have hlt := List.mem_range.mp hi
    simp [h (x + i) (by omega) (by omega)]
  rw [toList_add, List.countP_append, hnone]
  exact le_rfl

theorem pairwise_toList [LinearOrder α] (h : WeaklySorted a n) : (toList a n).Pairwise (· ≤ ·) := by
  refine List.pairwise_iff_getElem.mpr fun i j hi hj hij => ?_
  rw [length_toList] at hj
  rw [getElem_toList, getElem_toList]
  exact h i j hij.le hj

end Slots

end BEpsilon
