import Mathlib.Order.Basic
import Mathlib.Order.Lattice
import Mathlib.Logic.Function.Basic
import Mathlib.Data.List.Basic
import Mathlib.Tactic.Common

/-!
# BEpsilon.Lib.Slots — arrays with a live prefix

A fixed array whose first `n` slots are live is the function `Slots α` with the number `n` beside
it: slots at or beyond `n` keep whatever was stored there last.  The standard algorithms a program
runs on such arrays (`std::lower_bound`, `std::upper_bound`, `std::move`, `std::move_backward`) are
given by what they are documented to do.  `Sorted a n` says that the live keys are strictly
increasing, `lookup` reads two parallel arrays as a finite map, and the lemmas say what an insertion,
a removal and a cut of the live prefix do to that map.
-/

namespace BEpsilon

/-- The slots of an array, those beyond its live prefix included. -/
abbrev Slots (α : Type) := ℕ → α

namespace Slots

variable {α K V : Type}

/-- `std::move(src + first, src + last, dst + d)`; also right for one array moved to the left. -/
def moveTo (src : Slots α) (first last : ℕ) (dst : Slots α) (d : ℕ) : Slots α := fun j =>
  if d ≤ j ∧ j < d + (last - first) then src (first + (j - d)) else dst j

/-- `std::move_backward(a + first, a + last, a + dLast)`. -/
def moveBackward (a : Slots α) (first last dLast : ℕ) : Slots α :=
  moveTo a first last a (dLast - (last - first))

/-- Make room at `i` among the first `n` slots and store `x` there. -/
def insertAt (a : Slots α) (n i : ℕ) (x : α) : Slots α :=
  Function.update (moveBackward a i n (n + 1)) i x

/-- Shift `[i + 1, n)` one slot to the left. -/
def eraseAt (a : Slots α) (n i : ℕ) : Slots α := moveTo a (i + 1) n a i

/-- `std::remove_if` on the first `n` slots: find the first slot to remove and shift the later ones
that stay to the left.  The number is that of the slots that stay. -/
def removeIf (p : α → Bool) (a : Slots α) (n : ℕ) : Slots α × ℕ :=
  let first := (List.range n).findIdx fun i => p (a i)
  (List.range' (first + 1) (n - (first + 1))).foldl
    (fun (b, res) i => if p (b i) then (b, res) else (Function.update b res (b i), res + 1)) (a, first)

/-- The first `n` slots. -/
def toList (a : Slots α) (n : ℕ) : List α := (List.range n).map a

/-- Store the elements of a range from slot 0 on. -/
def assign (a : Slots α) (l : List α) : Slots α := fun j => l[j]?.getD (a j)

theorem moveTo_apply (src : Slots α) (first last : ℕ) (dst : Slots α) (d j : ℕ) :
    moveTo src first last dst d j =
      if d ≤ j ∧ j < d + (last - first) then src (first + (j - d)) else dst j := rfl

theorem insertAt_lt {a : Slots α} {n i j : ℕ} {x : α} (h : j < i) (hi : i ≤ n) :
    insertAt a n i x j = a j := by
  simp only [insertAt, moveBackward]
  rw [Function.update_of_ne (by omega), moveTo_apply, if_neg (by omega)]

@[simp] theorem insertAt_self {a : Slots α} {n i : ℕ} {x : α} : insertAt a n i x i = x := by
  simp [insertAt]

theorem insertAt_gt {a : Slots α} {n i j : ℕ} {x : α} (h : i < j) (hj : j ≤ n) :
    insertAt a n i x j = a (j - 1) := by
  simp only [insertAt, moveBackward]
  rw [Function.update_of_ne (by omega), moveTo_apply, if_pos (by omega)]
  congr 1
  omega

theorem insertAt_past {a : Slots α} {n i j : ℕ} {x : α} (hi : i ≤ n) (hj : n < j) :
    insertAt a n i x j = a j := by
  simp only [insertAt, moveBackward]
  rw [Function.update_of_ne (by omega), moveTo_apply, if_neg (by omega)]

theorem eraseAt_lt {a : Slots α} {n i j : ℕ} (h : j < i) : eraseAt a n i j = a j := by
  rw [eraseAt, moveTo_apply, if_neg (by omega)]

theorem eraseAt_ge {a : Slots α} {n i j : ℕ} (h : i ≤ j) (hj : j + 1 < n) :
    eraseAt a n i j = a (j + 1) := by
  rw [eraseAt, moveTo_apply, if_pos (by omega)]
  congr 1
  omega

/-- The last live slot keeps what it holds, and so do those past the end. -/
theorem eraseAt_past {a : Slots α} {n i j : ℕ} (hj : n ≤ j + 1) : eraseAt a n i j = a j := by
  rw [eraseAt, moveTo_apply, if_neg (by omega)]

@[simp] theorem length_toList (a : Slots α) (n : ℕ) : (toList a n).length = n := by simp [toList]

@[simp] theorem getElem_toList {a : Slots α} {n i : ℕ} (h : i < (toList a n).length) :
    (toList a n)[i] = a i := by simp [toList]

theorem toList_congr {a b : Slots α} {n : ℕ} (h : ∀ i < n, a i = b i) : toList a n = toList b n :=
  List.map_congr_left fun i hi => h i (List.mem_range.mp hi)

theorem toList_add (a : Slots α) (n m : ℕ) :
    toList a (n + m) = toList a n ++ toList (fun i => a (n + i)) m := by
  rw [toList, List.range_add, List.map_append, List.map_map]
  rfl

theorem toList_update (a : Slots α) (n i : ℕ) (x : α) :
    toList (Function.update a i x) n = (toList a n).set i x := by
  refine List.ext_getElem (by simp) fun j h₁ h₂ => ?_
  rw [getElem_toList, List.getElem_set]
  by_cases hj : i = j
  · rw [if_pos hj, hj, Function.update_self]
  · rw [if_neg hj, Function.update_of_ne (Ne.symm hj), getElem_toList]

theorem toList_insertAt {a : Slots α} {n i : ℕ} {x : α} (hi : i ≤ n) :
    toList (insertAt a n i x) (n + 1) = (toList a n).insertIdx i x := by
  have hlen : i ≤ (toList a n).length := by rwa [length_toList]
  refine List.ext_getElem (by rw [List.length_insertIdx_of_le_length hlen]; simp) fun j h₁ h₂ => ?_
  rw [getElem_toList, List.getElem_insertIdx]
  rw [length_toList] at h₁
  split
  next h => rw [insertAt_lt h hi, getElem_toList]
  next h =>
    split
    next h' => rw [h', insertAt_self]
    next h' => rw [insertAt_gt (by omega) (by omega), getElem_toList]

theorem moveTo_zero {src dst : Slots α} {first last j : ℕ} (h : j < last - first) :
    moveTo src first last dst 0 j = src (first + j) := by
  simp [moveTo_apply, h]

/-! ### Bounds in a live prefix -/

section Order

variable [LinearOrder K]

/-- `std::lower_bound` over the first `n` slots: the first index whose key is not below `k`. -/
def lowerBound (a : Slots K) (n : ℕ) (k : K) : ℕ := (List.range n).findIdx fun i => !decide (a i < k)

/-- `std::upper_bound` over the first `n` slots: the first index whose key is above `k`. -/
def upperBound (a : Slots K) (n : ℕ) (k : K) : ℕ := (List.range n).findIdx fun i => decide (k < a i)

/-- The first `n` keys are strictly increasing. -/
def Sorted (a : Slots K) (n : ℕ) : Prop := ∀ i j, i < j → j < n → a i < a j

/-- The first `n` keys are in order, where a key may occur more than once. -/
def WeaklySorted (a : Slots K) (n : ℕ) : Prop := ∀ i j, i ≤ j → j < n → a i ≤ a j

theorem lowerBound_le (a : Slots K) (n : ℕ) (k : K) : lowerBound a n k ≤ n := by
  have h : lowerBound a n k ≤ (List.range n).length := List.findIdx_le_length
  simpa using h

theorem lt_of_lt_lowerBound {a : Slots K} {n i : ℕ} {k : K} (h : i < lowerBound a n k) : a i < k := by
  have := List.not_of_lt_findIdx h
  simpa using this

theorem le_of_lowerBound_lt {a : Slots K} {n : ℕ} {k : K} (h : lowerBound a n k < n) :
    k ≤ a (lowerBound a n k) := by
  have hl : (List.range n).findIdx (fun i => !decide (a i < k)) < (List.range n).length := by
    simpa [lowerBound] using h
  have := List.findIdx_getElem (w := hl)
  simpa [lowerBound] using this

theorem lowerBound_eq_iff {a : Slots K} {n i : ℕ} {k : K} :
    lowerBound a n k = i ↔ i ≤ n ∧ (∀ j < i, a j < k) ∧ (i < n → k ≤ a i) := by
  constructor
  · rintro rfl
    exact ⟨lowerBound_le a n k, fun j hj => lt_of_lt_lowerBound hj, le_of_lowerBound_lt⟩
  · rintro ⟨hi, hlt, hge⟩
    rcases lt_trichotomy (lowerBound a n k) i with h | h | h
    · exact absurd (hlt _ h) (not_lt.mpr (le_of_lowerBound_lt (by omega)))
    · exact h
    · exact absurd (lt_of_lt_lowerBound h) (not_lt.mpr (hge (by have := lowerBound_le a n k; omega)))

theorem upperBound_le (a : Slots K) (n : ℕ) (k : K) : upperBound a n k ≤ n := by
  have h : upperBound a n k ≤ (List.range n).length := List.findIdx_le_length
  simpa using h

theorem le_of_lt_upperBound {a : Slots K} {n i : ℕ} {k : K} (h : i < upperBound a n k) : a i ≤ k := by
  have := List.not_of_lt_findIdx h
  simpa using this

theorem lt_of_upperBound_lt {a : Slots K} {n : ℕ} {k : K} (h : upperBound a n k < n) :
    k < a (upperBound a n k) := by
  have hl : (List.range n).findIdx (fun i => decide (k < a i)) < (List.range n).length := by
    simpa [upperBound] using h
  have := List.findIdx_getElem (w := hl)
  simpa [upperBound] using this

theorem Sorted.mono {a : Slots K} {n m : ℕ} (h : Sorted a n) (hm : m ≤ n) : Sorted a m :=
  fun i j hij hj => h i j hij (by omega)

theorem Sorted.weakly {a : Slots K} {n : ℕ} (h : Sorted a n) : WeaklySorted a n := by
  intro i j hij hj
  rcases hij.lt_or_eq with hlt | rfl
  · exact (h i j hlt hj).le
  · exact le_rfl

theorem Sorted.congr {a b : Slots K} {n : ℕ} (h : Sorted a n) (hab : ∀ i < n, b i = a i) :
    Sorted b n := fun i j hij hj => by
  rw [hab i (by omega), hab j hj]
  exact h i j hij hj

theorem Sorted.inj {a : Slots K} {n i j : ℕ} (h : Sorted a n) (hi : i < n) (hj : j < n)
    (e : a i = a j) : i = j := by
  rcases lt_trichotomy i j with hlt | rfl | hlt
  · exact absurd e (h i j hlt hj).ne
  · rfl
  · exact absurd e (h j i hlt hi).ne'

theorem Sorted.lowerBound_self {a : Slots K} {n i : ℕ} (h : Sorted a n) (hi : i < n) :
    lowerBound a n (a i) = i :=
  lowerBound_eq_iff.mpr ⟨hi.le, fun j hj => h j i hj hi, fun _ => le_rfl⟩

/-- The lower bound finds a live key. -/
theorem Sorted.found_iff {a : Slots K} {n : ℕ} {k : K} (h : Sorted a n) :
    (lowerBound a n k < n ∧ a (lowerBound a n k) = k) ↔ ∃ i < n, a i = k := by
  constructor
  · rintro ⟨h₁, h₂⟩
    exact ⟨_, h₁, h₂⟩
  · rintro ⟨i, hi, rfl⟩
    rw [h.lowerBound_self hi]
    exact ⟨hi, rfl⟩

theorem Sorted.insertAt {a : Slots K} {n : ℕ} {k : K} (h : Sorted a n)
    (hk : ¬ ∃ i < n, a i = k) : Sorted (insertAt a n (lowerBound a n k) k) (n + 1) := by
  have hle := lowerBound_le a n k
  have hge : ∀ j, lowerBound a n k ≤ j → j < n → k < a j := by
    intro j hj hn
    have h₁ : k ≤ a (lowerBound a n k) := le_of_lowerBound_lt (by omega)
    have h₂ : a (lowerBound a n k) ≤ a j := by
      rcases hj.lt_or_eq with hlt | heq
      · exact (h _ _ hlt hn).le
      · rw [heq]
    exact lt_of_le_of_ne (h₁.trans h₂) fun e => hk ⟨j, hn, e.symm⟩
  intro i j hij hj
  rcases lt_trichotomy j (lowerBound a n k) with hjl | rfl | hjl
  · rw [insertAt_lt (by omega) hle, insertAt_lt hjl hle]
    exact h i j hij (by omega)
  · rw [insertAt_lt hij hle, insertAt_self]
    exact lt_of_lt_lowerBound hij
  · rw [insertAt_gt hjl (by omega)]
    rcases lt_trichotomy i (lowerBound a n k) with hil | rfl | hil
    · rw [insertAt_lt hil hle]
      exact h _ _ (by omega) (by omega)
    · rw [insertAt_self]
      exact hge _ (by omega) (by omega)
    · rw [insertAt_gt hil (by omega)]
      exact h _ _ (by omega) (by omega)

theorem Sorted.eraseAt {a : Slots K} {n i : ℕ} (h : Sorted a n) (hi : i < n) :
    Sorted (eraseAt a n i) (n - 1) := by
  intro x y hxy hy
  rcases lt_or_ge y i with hyi | hyi
  · rw [eraseAt_lt (by omega), eraseAt_lt hyi]
    exact h x y hxy (by omega)
  · rw [eraseAt_ge hyi (by omega)]
    rcases lt_or_ge x i with hxi | hxi
    · rw [eraseAt_lt hxi]
      exact h _ _ (by omega) (by omega)
    · rw [eraseAt_ge hxi (by omega)]
      exact h _ _ (by omega) (by omega)

theorem Sorted.moveTo {a dst : Slots K} {n i : ℕ} (h : Sorted a n) :
    Sorted (moveTo a i n dst 0) (n - i) := by
  intro x y hxy hy
  rw [moveTo_zero (by omega), moveTo_zero (by omega)]
  exact h _ _ (by omega) (by omega)

/-! ### Two parallel arrays as a finite map -/

/-- The value beside `k`, when `k` is one of the first `n` keys. -/
def lookup (keys : Slots K) (vals : Slots V) (n : ℕ) (k : K) : Option V :=
  if lowerBound keys n k < n ∧ keys (lowerBound keys n k) = k then
    some (vals (lowerBound keys n k))
  else none

variable {keys : Slots K} {vals : Slots V} {n : ℕ} {k : K} {v : V}

theorem lookup_eq_some_iff (h : Sorted keys n) :
    lookup keys vals n k = some v ↔ ∃ i < n, keys i = k ∧ vals i = v := by
  unfold lookup
  constructor
  · intro he
    split at he
    next hc => exact ⟨_, hc.1, hc.2, by simpa using he⟩
    next => simp at he
  · rintro ⟨i, hi, rfl, rfl⟩
    rw [h.lowerBound_self hi, if_pos ⟨hi, rfl⟩]

theorem lookup_self (h : Sorted keys n) {i : ℕ} (hi : i < n) :
    lookup keys vals n (keys i) = some (vals i) :=
  (lookup_eq_some_iff h).mpr ⟨i, hi, rfl, rfl⟩

theorem lookup_eq_none_iff (h : Sorted keys n) :
    lookup keys vals n k = none ↔ ¬ ∃ i < n, keys i = k := by
  unfold lookup
  rw [← h.found_iff]
  split <;> simp_all

/-- Two maps agree when they have the same live entries. -/
theorem lookup_congr {keys' : Slots K} {vals' : Slots V} {n' : ℕ} {k' : K} (h : Sorted keys n)
    (h' : Sorted keys' n')
    (he : ∀ v, (∃ i < n, keys i = k ∧ vals i = v) ↔ ∃ i < n', keys' i = k' ∧ vals' i = v) :
    lookup keys vals n k = lookup keys' vals' n' k' := by
  apply Option.ext
  intro v
  rw [lookup_eq_some_iff h, lookup_eq_some_iff h', he]

theorem lookup_insertAt (h : Sorted keys n) (hk : ¬ ∃ i < n, keys i = k) (x : K) :
    lookup (insertAt keys n (lowerBound keys n k) k) (insertAt vals n (lowerBound keys n k) v)
      (n + 1) x = if x = k then some v else lookup keys vals n x := by
  have hle := lowerBound_le keys n k
  have hs := h.insertAt hk
  split
  next hx =>
    subst hx
    exact (lookup_eq_some_iff hs).mpr ⟨_, by omega, insertAt_self, insertAt_self⟩
  next hx =>
    refine lookup_congr hs h fun u => ⟨?_, ?_⟩
    · rintro ⟨i, hi, hki, hvi⟩
      rcases lt_trichotomy i (lowerBound keys n k) with hl | rfl | hl
      · rw [insertAt_lt hl hle] at hki hvi
        exact ⟨i, by omega, hki, hvi⟩
      · exact absurd (insertAt_self.symm.trans hki).symm hx
      · rw [insertAt_gt hl (by omega)] at hki hvi
        exact ⟨i - 1, by omega, hki, hvi⟩
    · rintro ⟨i, hi, hki, hvi⟩
      rcases lt_or_ge i (lowerBound keys n k) with hl | hl
      · exact ⟨i, by omega, by rwa [insertAt_lt hl hle], by rwa [insertAt_lt hl hle]⟩
      · refine ⟨i + 1, by omega, ?_, ?_⟩
        · rwa [insertAt_gt (by omega) (by omega), Nat.add_sub_cancel]
        · rwa [insertAt_gt (by omega) (by omega), Nat.add_sub_cancel]

theorem lookup_eraseAt (h : Sorted keys n) {i : ℕ} (hi : i < n) (x : K) :
    lookup (eraseAt keys n i) (eraseAt vals n i) (n - 1) x =
      if x = keys i then none else lookup keys vals n x := by
  have hs := h.eraseAt hi
  split
  next hx =>
    subst hx
    rw [lookup_eq_none_iff hs]
    rintro ⟨j, hj, he⟩
    rcases lt_or_ge j i with hl | hl
    · rw [eraseAt_lt hl] at he
      exact absurd (h.inj (by omega) hi he) (by omega)
    · rw [eraseAt_ge hl (by omega)] at he
      exact absurd (h.inj (by omega) hi he) (by omega)
  next hx =>
    refine lookup_congr hs h fun u => ⟨?_, ?_⟩
    · rintro ⟨j, hj, hkj, hvj⟩
      rcases lt_or_ge j i with hl | hl
      · rw [eraseAt_lt hl] at hkj hvj
        exact ⟨j, by omega, hkj, hvj⟩
      · rw [eraseAt_ge hl (by omega)] at hkj hvj
        exact ⟨j + 1, by omega, hkj, hvj⟩
    · rintro ⟨j, hj, hkj, hvj⟩
      rcases lt_trichotomy j i with hl | rfl | hl
      · exact ⟨j, by omega, by rwa [eraseAt_lt hl], by rwa [eraseAt_lt hl]⟩
      · exact absurd hkj.symm hx
      · refine ⟨j - 1, by omega, ?_, ?_⟩
        · rwa [eraseAt_ge (by omega) (by omega), Nat.sub_add_cancel (by omega)]
        · rwa [eraseAt_ge (by omega) (by omega), Nat.sub_add_cancel (by omega)]

theorem lookup_update (h : Sorted keys n) {i : ℕ} (hi : i < n) (x : K) :
    lookup keys (Function.update vals i v) n x =
      if x = keys i then some v else lookup keys vals n x := by
  split
  next hx =>
    subst hx
    rw [lookup_self h hi, Function.update_self]
  next hx =>
    refine lookup_congr h h fun u => ?_
    constructor
    · rintro ⟨j, hj, rfl, hv⟩
      rw [Function.update_of_ne (fun e => hx (by rw [e]))] at hv
      exact ⟨j, hj, rfl, hv⟩
    · rintro ⟨j, hj, rfl, hv⟩
      exact ⟨j, hj, rfl, by rwa [Function.update_of_ne (fun e => hx (by rw [e]))]⟩

/-- Keeping the first `i` entries keeps the keys below the cut. -/
theorem lookup_take (h : Sorted keys n) {i : ℕ} (hi : i ≤ n) (hk : ∀ j, i ≤ j → j < n → keys j ≠ k) :
    lookup keys vals i k = lookup keys vals n k := by
  refine lookup_congr (h.mono hi) h fun u => ⟨?_, ?_⟩
  · rintro ⟨j, hj, hkj, hvj⟩
    exact ⟨j, by omega, hkj, hvj⟩
  · rintro ⟨j, hj, hkj, hvj⟩
    rcases lt_or_ge j i with hl | hl
    · exact ⟨j, hl, hkj, hvj⟩
    · exact absurd hkj (hk j hl hj)

/-- Moving the entries from `i` on to the front of fresh arrays keeps the keys above the cut. -/
theorem lookup_drop (h : Sorted keys n) {i : ℕ} {kdst : Slots K} {vdst : Slots V}
    (hk : ∀ j, j < i → j < n → keys j ≠ k) :
    lookup (moveTo keys i n kdst 0) (moveTo vals i n vdst 0) (n - i) k = lookup keys vals n k := by
  refine lookup_congr h.moveTo h fun u => ⟨?_, ?_⟩
  · rintro ⟨j, hj, hkj, hvj⟩
    rw [moveTo_zero hj] at hkj hvj
    exact ⟨i + j, by omega, hkj, hvj⟩
  · rintro ⟨j, hj, hkj, hvj⟩
    rcases lt_or_ge j i with hl | hl
    · exact absurd hkj (hk j hl hj)
    · refine ⟨j - i, by omega, ?_, ?_⟩
      · rwa [moveTo_zero (by omega), Nat.add_sub_cancel' hl]
      · rwa [moveTo_zero (by omega), Nat.add_sub_cancel' hl]

end Order

end Slots

end BEpsilon
