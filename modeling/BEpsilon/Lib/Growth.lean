import BEpsilon.Lib.Fanout
import Mathlib.Data.List.Pairwise

/-!
# BEpsilon.Lib.Growth — an inner page that takes several pivots

A list of new pivots, each with the child it goes into and the page right of it, for different
children of one page.  `Grown` says what the page is after it has taken them; the order in which it does
does not matter.  The backward loop that moves every slot once and stores the pivots of the last
children first is shown to give the same arrays as one insertion after the other.
-/

namespace BEpsilon

open Slots

namespace Fanout

variable {K ι : Type} [LinearOrder K]

/-- The page `piv'`, `ch'`, `n'` is the page `piv`, `ch`, `n` after it has taken the new pivots. -/
structure Grown (piv : Slots K) (ch : Slots ι) (n : ℕ) (new : List (ℕ × K × ι)) (piv' : Slots K)
    (ch' : Slots ι) (n' : ℕ) : Prop where
  size : n' = n + new.length
  sorted : Sorted piv' n'
  distinct : Distinct ch' n'
  route_new : ∀ t ∈ new, ∀ k, lowerBound piv n k = t.1 → t.2.1 < k → route piv' ch' n' k = t.2.2
  route_old : ∀ k, (∀ t ∈ new, lowerBound piv n k = t.1 → k ≤ t.2.1) →
    route piv' ch' n' k = route piv ch n k
  pivots : ∀ x, x ∈ pivotSet piv' n' ↔ x ∈ pivotSet piv n ∨ ∃ t ∈ new, t.2.1 = x
  children : ∀ c, c ∈ childSet ch' n' ↔ c ∈ childSet ch n ∨ ∃ t ∈ new, t.2.2 = c

variable {piv piv' piv'' : Slots K} {ch ch' ch'' : Slots ι} {n n' n'' i j : ℕ}
  {new new' : List (ℕ × K × ι)} {mid : K} {r : ι}

theorem Grown.nil (hs : Sorted piv n) (hd : Distinct ch n) : Grown piv ch n [] piv ch n :=
  ⟨rfl, hs, hd, by simp, fun _ _ => rfl, by simp, by simp⟩

/-- The page takes one more pivot, for a child that has not been split yet. -/
theorem Grown.insert (hG : Grown piv ch n new piv' ch' n') (hi : i ≤ n')
    (hlo : ∀ p < i, piv' p < mid) (hhi : i < n' → mid < piv' i)
    (hidx : ∀ k, lowerBound piv' n' k = i ↔ lowerBound piv n k = j) (hr : r ∉ childSet ch' n')
    (hj : ∀ t ∈ new, t.1 ≠ j) :
    Grown piv ch n ((j, mid, r) :: new) (insertAt piv' n' i mid)
      (insertAt ch' (n' + 1) (i + 1) r) (n' + 1) where
  size := by rw [hG.size, List.length_cons]; omega
  sorted := sorted_insertPivot hG.sorted hi hlo hhi
  distinct := distinct_insertPivot hG.distinct hi hr
  route_new t ht k hk hlt := by
    rw [route_insertPivot hi hlo hhi]
    rcases List.mem_cons.mp ht with rfl | ht
    · rw [if_pos ⟨(hidx k).mpr hk, hlt⟩]
    · rw [if_neg fun hc => hj t ht (hk.symm.trans ((hidx k).mp hc.1))]
      exact hG.route_new t ht k hk hlt
  route_old k hk := by
    rw [route_insertPivot hi hlo hhi, if_neg, hG.route_old k fun t ht => hk t (List.mem_cons_of_mem _ ht)]
    rintro ⟨h₁, h₂⟩
    exact absurd h₂ (not_lt.mpr (hk _ List.mem_cons_self ((hidx k).mp h₁)))
  pivots x := by
    rw [mem_pivotSet_insertPivot hi, hG.pivots]
    simp only [List.mem_cons, exists_eq_or_imp]
    rw [eq_comm, or_left_comm]
  children c := by
    rw [mem_childSet_insertPivot hi, hG.children]
    simp only [List.mem_cons, exists_eq_or_imp]
    rw [eq_comm, or_left_comm]

/-- A child that has not been split has the keys that it had. -/
theorem Grown.index_iff (hG : Grown piv ch n new piv' ch' n') (hd : Distinct ch n)
    (hfresh : ∀ t ∈ new, t.2.2 ∉ childSet ch n) (hi : ∀ t ∈ new, t.1 ≠ i) {k₀ : K}
    (hk₀ : lowerBound piv n k₀ = i) (k : K) :
    lowerBound piv' n' k = lowerBound piv' n' k₀ ↔ lowerBound piv n k = i := by
  have hstay : ∀ x, lowerBound piv n x = i → route piv' ch' n' x = ch i := fun x hx => by
    rw [hG.route_old x fun t ht e => absurd (e.symm.trans hx) (hi t ht), route, hx]
  rw [← route_eq_iff hG.distinct, hstay k₀ hk₀]
  refine ⟨fun e => ?_, hstay k⟩
  by_cases hk : ∀ t ∈ new, lowerBound piv n k = t.1 → k ≤ t.2.1
  · rw [hG.route_old k hk, route] at e
    exact hd _ _ (lowerBound_le _ _ _) (hk₀ ▸ lowerBound_le _ _ _) e
  · push Not at hk
    obtain ⟨t, ht, hidx, hlt⟩ := hk
    rw [hG.route_new t ht k hidx hlt] at e
    exact absurd ⟨i, hk₀ ▸ lowerBound_le _ _ _, e.symm⟩ (hfresh t ht)

/-- The page learns the pivot `mid` of the child `i`, which the key `k₀` goes to. -/
theorem Grown.learn (hG : Grown piv ch n new piv' ch' n') (hd : Distinct ch n)
    (hfresh : ∀ t ∈ new, t.2.2 ∉ childSet ch n) (hi : ∀ t ∈ new, t.1 ≠ i) {k₀ x : K}
    (hk₀ : lowerBound piv n k₀ = i) (hm : lowerBound piv n mid = i) (hx : lowerBound piv n x = i)
    (hlt : mid < x) (hr : r ∉ childSet ch' n') :
    Grown piv ch n ((i, mid, r) :: new) (insertAt piv' n' (lowerBound piv' n' k₀) mid)
      (insertAt ch' (n' + 1) (lowerBound piv' n' k₀ + 1) r) (n' + 1) := by
  have hidx := hG.index_iff hd hfresh hi hk₀
  have hmid := lowerBound_eq_iff.mp ((hidx mid).mpr hm)
  exact hG.insert hmid.1 hmid.2.1
    (fun h => hlt.trans_le ((lowerBound_eq_iff.mp ((hidx x).mpr hx)).2.2 h)) hidx hr hi

theorem Grown.perm (hG : Grown piv ch n new piv' ch' n') (hp : new.Perm new') :
    Grown piv ch n new' piv' ch' n' where
  size := by rw [hG.size, hp.length_eq]
  sorted := hG.sorted
  distinct := hG.distinct
  route_new t ht := hG.route_new t (hp.mem_iff.mpr ht)
  route_old k hk := hG.route_old k fun t ht => hk t (hp.mem_iff.mp ht)
  pivots x := by simp only [hG.pivots, hp.mem_iff]
  children c := by simp only [hG.children, hp.mem_iff]

/-- The view of the page does not depend on the order of the pivots. -/
theorem Grown.view_eq (h₁ : Grown piv ch n new piv' ch' n') (h₂ : Grown piv ch n new' piv'' ch'' n'')
    (hp : new.Perm new') : view piv' ch' n' = view piv'' ch'' n'' := by
  have hroute : route piv' ch' n' = route piv'' ch'' n'' := by
    funext k
    by_cases hk : ∀ t ∈ new, lowerBound piv n k = t.1 → k ≤ t.2.1
    · rw [h₁.route_old k hk, h₂.route_old k fun t ht => hk t (hp.mem_iff.mpr ht)]
    · push Not at hk
      obtain ⟨t, ht, hidx, hlt⟩ := hk
      rw [h₁.route_new t ht k hidx hlt, h₂.route_new t (hp.mem_iff.mp ht) k hidx hlt]
  have hpiv : pivotSet piv' n' = pivotSet piv'' n'' := by
    ext x
    simp only [h₁.pivots, h₂.pivots, hp.mem_iff]
  have hch : childSet ch' n' = childSet ch'' n'' := by
    ext c
    simp only [h₁.children, h₂.children, hp.mem_iff]
  rw [view, view, hroute, hpiv, hch]

theorem lowerBound_congr (h : ∀ p < n, piv' p = piv p) (k : K) :
    lowerBound piv' n k = lowerBound piv n k := by
  have hle := lowerBound_le piv n k
  refine lowerBound_eq_iff.mpr ⟨hle, fun p hp => ?_, fun hlt => ?_⟩
  · rw [h p (by omega)]
    exact lt_of_lt_lowerBound hp
  · rw [h _ hlt]
    exact le_of_lowerBound_lt hlt

/-- Only the live slots matter. -/
theorem Grown.congr (hG : Grown piv ch n new piv' ch' n') (hp : ∀ p < n', piv'' p = piv' p)
    (hc : ∀ p < n' + 1, ch'' p = ch' p) : Grown piv ch n new piv'' ch'' n' := by
  have hroute : ∀ k, route piv'' ch'' n' k = route piv' ch' n' k := fun k => by
    have hle := lowerBound_le piv' n' k
    rw [route, route, lowerBound_congr hp, hc _ (by omega)]
  refine ⟨hG.size, hG.sorted.congr hp, fun a b ha hb e => ?_, fun t ht k hk hlt => ?_, fun k hk => ?_,
    fun x => ?_, fun c => ?_⟩
  · rw [hc a (by omega), hc b (by omega)] at e
    exact hG.distinct a b ha hb e
  · rw [hroute, hG.route_new t ht k hk hlt]
  · rw [hroute, hG.route_old k hk]
  · rw [← hG.pivots]
    exact exists_congr fun p => and_congr_right fun hp' => by rw [hp p hp']
  · rw [← hG.children]
    exact exists_congr fun p => and_congr_right fun hp' => by rw [hc p (by omega)]

end Fanout

/-! ### One pass over the slots -/

namespace Slots

variable {α : Type}

/-- The array `a` is `q`, `n` live slots long, with the slots from `l` on moved by `it`. -/
def Shifted (a q : Slots α) (l it n : ℕ) : Prop :=
  (∀ p < l, a p = q p) ∧ ∀ p, l + it ≤ p → p < n + it → a p = q (p - it)

theorem Shifted.start (a : Slots α) (n it : ℕ) : Shifted a a n it n :=
  ⟨fun _ _ => rfl, fun p h₁ h₂ => by omega⟩

/-- Nothing is left to do. -/
theorem Shifted.done {a q : Slots α} {l n p : ℕ} (h : Shifted a q l 0 n) (hp : p < n) : a p = q p := by
  rcases lt_or_ge p l with hl | hl
  · exact h.1 p hl
  · exact h.2 p (by omega) (by omega)

/-- One round: the slots between `i` and `l` are moved and `x` is stored. -/
theorem Shifted.step {a q : Slots α} {l it n i : ℕ} {x : α} (h : Shifted a q l (it + 1) n) (hi : i ≤ l)
    (hl : l ≤ n) :
    Shifted (Function.update (moveBackward a i l (l + (it + 1))) (i + it) x) (insertAt q n i x) i it
      (n + 1) := by
  refine ⟨fun p hp => ?_, fun p h₁ h₂ => ?_⟩
  · rw [Function.update_of_ne (by omega), moveBackward, moveTo_apply, if_neg (by omega), h.1 p (by omega),
      insertAt_lt hp (by omega)]
  · rcases h₁.lt_or_eq with hlt | rfl
    · rw [Function.update_of_ne (by omega), insertAt_gt (by omega) (by omega), moveBackward, moveTo_apply]
      split
      next hc =>
        rw [h.1 _ (by omega)]
        congr 1
        omega
      next hc =>
        rw [h.2 p (by omega) (by omega)]
        congr 1
    · rw [Function.update_self, Nat.add_sub_cancel, insertAt_self]

end Slots

end BEpsilon
