import BEpsilon.Lib.Fanout
import Mathlib.Algebra.Order.Group.Nat

/-!
# BEpsilon.Lib.Chunks — an inner page cut into chunks of one width

The children of a page are dealt out in chunks of `w`; between two chunks one pivot stays as a
separator.  A key whose lower bound is `j` goes to chunk `j / w`, and inside it to child `j % w`.
-/

namespace BEpsilon.Fanout

open Slots

variable {K ι : Type} [LinearOrder K] {piv q : Slots K} {ch e : Slots ι} {n w t p m : ℕ} {k : K}

/-- The separators are the pivots at the ends of the full chunks. -/
def Separators (piv : Slots K) (w m : ℕ) (q : Slots K) : Prop := ∀ t < m, q t = piv (t * w + (w - 1))

/-- The arrays `q`, `e` of size `p` are chunk `t` of a page. -/
structure Chunk (piv : Slots K) (ch : Slots ι) (n w t : ℕ) (q : Slots K) (e : Slots ι) (p : ℕ) :
    Prop where
  size : p = min (w - 1) (n - t * w)
  pivots : ∀ j < p, q j = piv (t * w + j)
  children : ∀ j ≤ p, e j = ch (t * w + j)

omit [LinearOrder K] in
theorem sep_lt (hw : 0 < w) (ht : t < n / w) : t * w + (w - 1) < n := by
  have h₁ : (t + 1) * w ≤ n := (Nat.le_div_iff_mul_le hw).mp ht
  rw [Nat.add_mul, Nat.one_mul] at h₁
  omega

theorem lowerBound_separators (hs : Sorted piv n) (hw : 0 < w) (hq : Separators piv w (n / w) q) (k : K) :
    lowerBound q (n / w) k = lowerBound piv n k / w := by
  have hle := lowerBound_le piv n k
  refine lowerBound_eq_iff.mpr ⟨Nat.div_le_div_right hle, fun t ht => ?_, fun hlt => ?_⟩
  · have h₁ := sep_lt hw ht
    rw [hq t (lt_of_lt_of_le ht (Nat.div_le_div_right hle))]
    exact lt_of_lt_lowerBound (n := n) h₁
  · have h₁ := sep_lt hw hlt
    rw [hq _ hlt]
    -- the separator is not left of the lower bound
    have h₂ : lowerBound piv n k ≤ lowerBound piv n k / w * w + (w - 1) := by
      have := Nat.lt_div_mul_add hw (a := lowerBound piv n k)
      omega
    have h₃ : k ≤ piv (lowerBound piv n k) := le_of_lowerBound_lt (by omega)
    refine h₃.trans ?_
    rcases h₂.lt_or_eq with hlt' | heq
    · exact (hs _ _ hlt' h₁).le
    · rw [← heq]

theorem sorted_separators (hs : Sorted piv n) (hw : 0 < w) (hq : Separators piv w (n / w) q) :
    Sorted q (n / w) := by
  intro i j hij hj
  rw [hq i (hij.trans hj), hq j hj]
  refine hs _ _ ?_ (sep_lt hw hj)
  have := Nat.mul_lt_mul_of_pos_right hij hw
  omega

namespace Chunk

variable (hc : Chunk piv ch n w t q e p)
include hc

omit [LinearOrder K] in
theorem bounds (hw : 0 < w) (ht : t ≤ n / w) : t * w + p ≤ n ∧ p < w := by
  have h₁ : t * w ≤ n := (Nat.mul_le_mul_right w ht).trans (Nat.div_mul_le_self n w)
  have := hc.size
  omega

theorem lowerBound_eq (hw : 0 < w) (hk : lowerBound piv n k / w = t) :
    lowerBound q p k = lowerBound piv n k - t * w := by
  have hle := lowerBound_le piv n k
  have h₁ : t * w ≤ lowerBound piv n k := hk ▸ Nat.div_mul_le_self _ _
  have h₂ : lowerBound piv n k < t * w + w := hk ▸ Nat.lt_div_mul_add hw
  have hp := hc.size
  refine lowerBound_eq_iff.mpr ⟨by omega, fun j hj => ?_, fun hlt => ?_⟩
  · rw [hc.pivots j (by omega)]
    exact lt_of_lt_lowerBound (n := n) (by omega)
  · rw [hc.pivots _ hlt, Nat.add_sub_cancel' h₁]
    exact le_of_lowerBound_lt (by omega)

/-- Inside its chunk a key goes to the same child as before. -/
theorem route_eq (hw : 0 < w) (hk : lowerBound piv n k / w = t) :
    route q e p k = route piv ch n k := by
  have hle := lowerBound_le q p k
  have h₁ : t * w ≤ lowerBound piv n k := hk ▸ Nat.div_mul_le_self _ _
  rw [route, hc.children _ hle, hc.lowerBound_eq hw hk, Nat.add_sub_cancel' h₁, route]

theorem sorted (hs : Sorted piv n) (hw : 0 < w) (ht : t ≤ n / w) : Sorted q p := by
  have hb := hc.bounds hw ht
  intro i j hij hj
  rw [hc.pivots i (by omega), hc.pivots j hj]
  exact hs _ _ (by omega) (by omega)

omit [LinearOrder K] in
theorem distinct (hd : Distinct ch n) (hw : 0 < w) (ht : t ≤ n / w) : Distinct e p := by
  have hb := hc.bounds hw ht
  intro i j hi hj he
  rw [hc.children i hi, hc.children j hj] at he
  have := hd _ _ (by omega) (by omega) he
  omega

omit hc in
theorem div_eq {j : ℕ} (hj : j < w) : (t * w + j) / w = t := by
  rw [Nat.mul_comm, Nat.mul_add_div (by omega), Nat.div_eq_of_lt hj, Nat.add_zero]

/-- The pivots of a chunk are keys of it. -/
theorem pivot_div (hs : Sorted piv n) (hw : 0 < w) (ht : t ≤ n / w) {x : K} (hx : x ∈ pivotSet q p) :
    lowerBound piv n x / w = t := by
  obtain ⟨j, hj, rfl⟩ := hx
  have hb := hc.bounds hw ht
  rw [hc.pivots j hj, hs.lowerBound_self (by omega)]
  exact div_eq (by omega)

omit [LinearOrder K] in
/-- The children of a chunk. -/
theorem child_index (hw : 0 < w) (ht : t ≤ n / w) {c : ι} (hm : c ∈ childSet e p) :
    ∃ i ≤ n, i / w = t ∧ ch i = c := by
  obtain ⟨j, hj, rfl⟩ := hm
  have hb := hc.bounds hw ht
  exact ⟨t * w + j, by omega, div_eq (by omega), (hc.children j hj).symm⟩

end Chunk

/-! ### The chunks put together again -/

section Together

variable {α : Type}

/-- Lists one after another, with a separator between two of them. -/
def weave : List (List α) → List α → List α
  | [], _ => []
  | l :: ls, [] => l ++ ls.flatten
  | l :: ls, s :: seps => l ++ s :: weave ls seps

theorem weave_append {ls : List (List α)} {seps : List α} {l : List α} {s : α}
    (h : seps.length + 1 = ls.length) : weave (ls ++ [l]) (seps ++ [s]) = weave ls seps ++ s :: l := by
  induction ls generalizing seps with
  | nil => simp at h
  | cons a ls ih =>
    cases seps with
    | nil =>
      obtain rfl : ls = [] := by simpa using h.symm
      simp [weave]
    | cons b seps =>
      rw [List.cons_append, List.cons_append, weave, ih (by simpa using h), weave, List.append_assoc,
        List.cons_append]

omit [LinearOrder K]

variable {qs : ℕ → Slots K} {es : ℕ → Slots ι} {ps : ℕ → ℕ}

/-- A chunk that is not the last one is full. -/
theorem Chunk.full (hc : Chunk piv ch n w t q e p) (hm : m * w < n) (ht : t < m) : p = w - 1 := by
  have h₁ : (t + 1) * w ≤ m * w := Nat.mul_le_mul_right w ht
  rw [Nat.add_mul, Nat.one_mul] at h₁
  rw [hc.size]
  omega

/-- The children of the chunks are the first children of the page. -/
theorem flatMap_children (hw : 0 < w) (hm : m * w < n)
    (hc : ∀ t ≤ m, Chunk piv ch n w t (qs t) (es t) (ps t)) :
    ((List.range (m + 1)).flatMap fun t => toList (es t) (ps t + 1)) = toList ch (m * w + ps m + 1) := by
  have hchunk : ∀ t ≤ m, toList (es t) (ps t + 1) = toList (fun i => ch (t * w + i)) (ps t + 1) :=
    fun t ht => toList_congr fun i hi => (hc t ht).children i (by omega)
  induction m with
  | zero =>
    have h := hchunk 0 le_rfl
    simpa using h
  | succ m ih =>
    have hfull : ps m = w - 1 := (hc m (Nat.le_succ m)).full hm (Nat.lt_succ_self m)
    have hlen : m * w + ps m + 1 = (m + 1) * w := by
      rw [Nat.add_mul, Nat.one_mul]
      omega
    have hprev : m * w < n := lt_of_le_of_lt (Nat.mul_le_mul_right w (Nat.le_succ m)) hm
    rw [List.range_succ, List.flatMap_append, ih hprev (fun t ht => hc t (by omega)) fun t ht => hchunk t (by omega),
      List.flatMap_cons, List.flatMap_nil, List.append_nil, hchunk _ le_rfl, hlen,
      Nat.add_assoc _ (ps (m + 1)) 1, toList_add ch]

/-- The pivots of the chunks with the separators between them are the first pivots of the page. -/
theorem weave_pivots (hw : 0 < w) (hm : m * w < n)
    (hc : ∀ t ≤ m, Chunk piv ch n w t (qs t) (es t) (ps t)) :
    weave ((List.range (m + 1)).map fun t => toList (qs t) (ps t))
      ((List.range m).map fun t => piv (t * w + (w - 1))) = toList piv (m * w + ps m) := by
  have hchunk : ∀ t ≤ m, toList (qs t) (ps t) = toList (fun i => piv (t * w + i)) (ps t) :=
    fun t ht => toList_congr fun i hi => (hc t ht).pivots i hi
  induction m with
  | zero =>
    have h := hchunk 0 le_rfl
    simpa [weave] using h
  | succ m ih =>
    have hfull : ps m = w - 1 := (hc m (Nat.le_succ m)).full hm (Nat.lt_succ_self m)
    have hlen : m * w + ps m + 1 = (m + 1) * w := by
      rw [Nat.add_mul, Nat.one_mul]
      omega
    have hprev : m * w < n := lt_of_le_of_lt (Nat.mul_le_mul_right w (Nat.le_succ m)) hm
    have hsep : toList (fun i => piv (m * w + ps m + i)) 1 = [piv (m * w + (w - 1))] := by
      rw [hfull]
      rfl
    have hlists : (List.range (m + 1 + 1)).map (fun t => toList (qs t) (ps t)) =
        (List.range (m + 1)).map (fun t => toList (qs t) (ps t)) ++ [toList (qs (m + 1)) (ps (m + 1))] := by
      rw [List.range_succ, List.map_append, List.map_singleton]
    have hseps : (List.range (m + 1)).map (fun t => piv (t * w + (w - 1))) =
        (List.range m).map (fun t => piv (t * w + (w - 1))) ++ [piv (m * w + (w - 1))] := by
      rw [List.range_succ, List.map_append, List.map_singleton]
    rw [hlists, hseps, weave_append (by simp), ih hprev (fun t ht => hc t (by omega)) fun t ht => hchunk t (by omega),
      hchunk _ le_rfl, ← hlen, toList_add _ (m * w + ps m + 1), toList_add _ (m * w + ps m) 1, hsep,
      List.append_assoc, List.singleton_append]

end Together

end BEpsilon.Fanout
