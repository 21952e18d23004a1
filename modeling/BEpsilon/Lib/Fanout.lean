import BEpsilon.Lib.Slots
import BEpsilon.Lib.Routing

/-!
# BEpsilon.Lib.Fanout — inner pages stored as an array of pivots and an array of children

An inner page of a search tree keeps `n` pivots and `n + 1` children in two arrays and routes a key
to the child at its lower bound among the pivots.  The lemmas say what inserting a pivot and cutting
the arrays at a pivot do to the routing, in the form that `Routed.split` asks for.
-/

namespace BEpsilon

open Slots

namespace Fanout

variable {K ι : Type} [LinearOrder K]

/-- The child that `k` is routed to. -/
def route (piv : Slots K) (ch : Slots ι) (n : ℕ) (k : K) : ι := ch (lowerBound piv n k)

/-- The live pivots. -/
def pivotSet (piv : Slots K) (n : ℕ) : Set K := {x | ∃ i < n, piv i = x}

/-- The live children. -/
def childSet (ch : Slots ι) (n : ℕ) : Set ι := {c | ∃ i ≤ n, ch i = c}

/-- The live children are distinct. -/
def Distinct (ch : Slots ι) (n : ℕ) : Prop := ∀ i j, i ≤ n → j ≤ n → ch i = ch j → i = j

/-- The view of an inner page. -/
def view (piv : Slots K) (ch : Slots ι) (n : ℕ) : View K ι :=
  .inner (route piv ch n) (pivotSet piv n) (childSet ch n)

variable {piv : Slots K} {ch : Slots ι} {n i s : ℕ} {k mid : K} {r : ι}

theorem route_mem (k : K) : route piv ch n k ∈ childSet ch n :=
  ⟨_, lowerBound_le piv n k, rfl⟩

theorem route_eq_iff (hd : Distinct ch n) {k' : K} :
    route piv ch n k = route piv ch n k' ↔ lowerBound piv n k = lowerBound piv n k' :=
  ⟨hd _ _ (lowerBound_le _ _ _) (lowerBound_le _ _ _), fun e => by rw [route, route, e]⟩

/-! ### Inserting a pivot -/

theorem sorted_insertPivot (hs : Sorted piv n) (hi : i ≤ n) (hlo : ∀ j < i, piv j < mid)
    (hhi : i < n → mid < piv i) : Sorted (insertAt piv n i mid) (n + 1) := by
  have hlb : lowerBound piv n mid = i :=
    lowerBound_eq_iff.mpr ⟨hi, hlo, fun h => (hhi h).le⟩
  rw [← hlb]
  refine hs.insertAt ?_
  rw [← hs.found_iff, hlb]
  rintro ⟨h₁, h₂⟩
  exact (hhi h₁).ne' h₂

theorem lowerBound_insertPivot (hi : i ≤ n) (hlo : ∀ j < i, piv j < mid)
    (hhi : i < n → mid < piv i) (k : K) :
    lowerBound (insertAt piv n i mid) (n + 1) k =
      if mid < k then lowerBound piv n k + 1 else lowerBound piv n k := by
  have hle := lowerBound_le piv n k
  split
  next hk =>
    have hil : i ≤ lowerBound piv n k := by
      by_contra hc
      exact absurd (le_of_lowerBound_lt (a := piv) (n := n) (k := k) (by omega))
        (not_le.mpr ((hlo _ (by omega)).trans hk))
    refine lowerBound_eq_iff.mpr ⟨by omega, fun j hj => ?_, fun hlt => ?_⟩
    · rcases lt_trichotomy j i with hji | rfl | hji
      · rw [insertAt_lt hji hi]; exact (hlo j hji).trans hk
      · rw [insertAt_self]; exact hk
      · rw [insertAt_gt hji (by omega)]; exact lt_of_lt_lowerBound (n := n) (by omega)
    · rw [insertAt_gt (by omega) (by omega), Nat.add_sub_cancel]
      exact le_of_lowerBound_lt (by omega)
  next hk =>
    have hkm := not_lt.mp hk
    have hil : lowerBound piv n k ≤ i := by
      by_contra hc
      have h₁ : piv i < k := lt_of_lt_lowerBound (n := n) (by omega)
      exact absurd (hkm.trans_lt (hhi (by omega))) h₁.asymm
    refine lowerBound_eq_iff.mpr ⟨by omega, fun j hj => ?_, fun _ => ?_⟩
    · rw [insertAt_lt (by omega) hi]; exact lt_of_lt_lowerBound hj
    · rcases hil.lt_or_eq with hlt | heq
      · rw [insertAt_lt hlt hi]; exact le_of_lowerBound_lt (by omega)
      · rw [heq, insertAt_self]; exact hkm

theorem route_insertPivot (hi : i ≤ n) (hlo : ∀ j < i, piv j < mid)
    (hhi : i < n → mid < piv i) (k : K) :
    route (insertAt piv n i mid) (insertAt ch (n + 1) (i + 1) r) (n + 1) k =
      if lowerBound piv n k = i ∧ mid < k then r else route piv ch n k := by
  have hle := lowerBound_le piv n k
  rw [route, lowerBound_insertPivot hi hlo hhi]
  split
  next hk =>
    have hil : i ≤ lowerBound piv n k := by
      by_contra hc
      exact absurd (le_of_lowerBound_lt (a := piv) (n := n) (k := k) (by omega))
        (not_le.mpr ((hlo _ (by omega)).trans hk))
    rcases hil.lt_or_eq with hlt | heq
    · rw [if_neg (by omega), insertAt_gt (by omega) (by omega), Nat.add_sub_cancel, route]
    · rw [if_pos ⟨heq.symm, hk⟩, ← heq, insertAt_self]
  next hk =>
    have hil : lowerBound piv n k ≤ i := by
      by_contra hc
      have h₁ : piv i < k := lt_of_lt_lowerBound (n := n) (by omega)
      exact absurd ((not_lt.mp hk).trans_lt (hhi (by omega))) h₁.asymm
    rw [if_neg fun h => hk h.2, insertAt_lt (by omega) (by omega), route]

omit [LinearOrder K] in
theorem mem_pivotSet_insertPivot (hi : i ≤ n) {x : K} :
    x ∈ pivotSet (insertAt piv n i mid) (n + 1) ↔ x = mid ∨ x ∈ pivotSet piv n := by
  constructor
  · rintro ⟨j, hj, rfl⟩
    rcases lt_trichotomy j i with hji | rfl | hji
    · exact .inr ⟨j, by omega, (insertAt_lt hji hi).symm⟩
    · exact .inl insertAt_self
    · exact .inr ⟨j - 1, by omega, (insertAt_gt hji (by omega)).symm⟩
  · rintro (rfl | ⟨j, hj, rfl⟩)
    · exact ⟨i, by omega, insertAt_self⟩
    · rcases lt_or_ge j i with hji | hji
      · exact ⟨j, by omega, insertAt_lt hji hi⟩
      · exact ⟨j + 1, by omega, by rw [insertAt_gt (by omega) (by omega), Nat.add_sub_cancel]⟩

theorem mem_childSet_insertPivot (hi : i ≤ n) {c : ι} :
    c ∈ childSet (insertAt ch (n + 1) (i + 1) r) (n + 1) ↔ c = r ∨ c ∈ childSet ch n := by
  constructor
  · rintro ⟨j, hj, rfl⟩
    rcases lt_trichotomy j (i + 1) with hji | rfl | hji
    · exact .inr ⟨j, by omega, (insertAt_lt hji (by omega)).symm⟩
    · exact .inl insertAt_self
    · exact .inr ⟨j - 1, by omega, (insertAt_gt hji (by omega)).symm⟩
  · rintro (rfl | ⟨j, hj, rfl⟩)
    · exact ⟨i + 1, by omega, insertAt_self⟩
    · rcases lt_or_ge j (i + 1) with hji | hji
      · exact ⟨j, by omega, insertAt_lt hji (by omega)⟩
      · exact ⟨j + 1, by omega, by rw [insertAt_gt (by omega) (by omega), Nat.add_sub_cancel]⟩

theorem distinct_insertPivot (hd : Distinct ch n) (hi : i ≤ n) (hr : r ∉ childSet ch n) :
    Distinct (insertAt ch (n + 1) (i + 1) r) (n + 1) := by
  -- where an old child stands afterwards
  have key : ∀ j ≤ n + 1, (j = i + 1 ∧ insertAt ch (n + 1) (i + 1) r j = r) ∨
      ∃ j₀ ≤ n, insertAt ch (n + 1) (i + 1) r j = ch j₀ ∧ j = if j₀ ≤ i then j₀ else j₀ + 1 := by
    intro j hj
    rcases lt_trichotomy j (i + 1) with hji | rfl | hji
    · exact .inr ⟨j, by omega, insertAt_lt hji (by omega), by rw [if_pos (by omega)]⟩
    · exact .inl ⟨rfl, insertAt_self⟩
    · exact .inr ⟨j - 1, by omega, insertAt_gt hji (by omega), by rw [if_neg (by omega)]; omega⟩
  intro a b ha hb e
  rcases key a ha with ⟨rfl, ea⟩ | ⟨a₀, ha₀, ea, rfl⟩ <;>
    rcases key b hb with ⟨rfl, eb⟩ | ⟨b₀, hb₀, eb, rfl⟩
  · rfl
  · exact absurd ⟨b₀, hb₀, by rw [← eb, ← e, ea]⟩ hr
  · exact absurd ⟨a₀, ha₀, by rw [← ea, e, eb]⟩ hr
  · rw [hd a₀ b₀ ha₀ hb₀ (by rw [← ea, e, eb])]

/-! ### Cutting the arrays at a pivot -/

/-- The arrays right of pivot `s`. -/
def dropPiv (piv : Slots K) (n s : ℕ) (dst : Slots K) : Slots K := moveTo piv (s + 1) n dst 0

/-- The children right of pivot `s`. -/
def dropCh (ch : Slots ι) (n s : ℕ) (dst : Slots ι) : Slots ι := moveTo ch (s + 1) (n + 1) dst 0

variable {p : Slots K} {q : Slots ι}

theorem lowerBound_take (hs : s < n) (hk : k ≤ piv s) : lowerBound piv s k = lowerBound piv n k := by
  have hle := lowerBound_le piv s k
  refine (lowerBound_eq_iff.mpr ⟨by omega, fun j hj => lt_of_lt_lowerBound hj, fun _ => ?_⟩).symm
  rcases hle.lt_or_eq with hlt | heq
  · exact le_of_lowerBound_lt hlt
  · rw [heq]; exact hk

theorem lt_lowerBound (hsort : Sorted piv n) (hs : s < n) (hk : piv s < k) :
    s < lowerBound piv n k := by
  by_contra hc
  have h₁ := le_of_lowerBound_lt (a := piv) (n := n) (k := k) (by omega)
  rcases (not_lt.mp hc).lt_or_eq with hlt | heq
  · exact absurd (h₁.trans_lt (hsort _ _ hlt hs)) hk.asymm
  · rw [heq] at h₁
    exact absurd hk (not_lt.mpr h₁)

theorem lowerBound_drop (hsort : Sorted piv n) (hs : s < n) (hk : piv s < k) :
    lowerBound (dropPiv piv n s p) (n - (s + 1)) k = lowerBound piv n k - (s + 1) := by
  have hle := lowerBound_le piv n k
  have hlt := lt_lowerBound hsort hs hk
  refine lowerBound_eq_iff.mpr ⟨by omega, fun j hj => ?_, fun hj => ?_⟩
  · rw [dropPiv, moveTo_zero (by omega)]
    exact lt_of_lt_lowerBound (n := n) (by omega)
  · rw [dropPiv, moveTo_zero (by omega), Nat.add_sub_cancel' (by omega)]
    exact le_of_lowerBound_lt (by omega)

theorem route_take (hs : s < n) (hk : k ≤ piv s) : route piv ch s k = route piv ch n k := by
  rw [route, route, lowerBound_take hs hk]

theorem route_drop (hsort : Sorted piv n) (hs : s < n) (hk : piv s < k) :
    route (dropPiv piv n s p) (dropCh ch n s q) (n - (s + 1)) k = route piv ch n k := by
  have hle := lowerBound_le piv n k
  have hlt := lt_lowerBound hsort hs hk
  rw [route, lowerBound_drop hsort hs hk, dropCh, moveTo_zero (by omega),
    Nat.add_sub_cancel' (by omega), route]

theorem sorted_drop (hsort : Sorted piv n) : Sorted (dropPiv piv n s p) (n - (s + 1)) :=
  hsort.moveTo

theorem distinct_take (hd : Distinct ch n) (hs : s ≤ n) : Distinct ch s :=
  fun i j hi hj e => hd i j (by omega) (by omega) e

theorem distinct_drop (hd : Distinct ch n) (hs : s < n) :
    Distinct (dropCh ch n s q) (n - (s + 1)) := by
  intro i j hi hj e
  rw [dropCh, moveTo_zero (by omega), moveTo_zero (by omega)] at e
  have := hd _ _ (by omega) (by omega) e
  omega

omit [LinearOrder K] in
theorem mem_pivotSet_drop {x : K} (h : x ∈ pivotSet (dropPiv piv n s p) (n - (s + 1))) :
    ∃ i, s < i ∧ i < n ∧ piv i = x := by
  obtain ⟨i, hi, rfl⟩ := h
  exact ⟨s + 1 + i, by omega, by omega, by rw [dropPiv, moveTo_zero (by omega)]⟩

theorem mem_childSet_drop {c : ι} (hs : s < n)
    (h : c ∈ childSet (dropCh ch n s q) (n - (s + 1))) : ∃ i, s < i ∧ i ≤ n ∧ ch i = c := by
  obtain ⟨i, hi, rfl⟩ := h
  exact ⟨s + 1 + i, by omega, by omega, by rw [dropCh, moveTo_zero (by omega)]⟩

/-! ### A split below a parent that keeps its pivots in arrays -/

section Parent

variable {pview : ι → Option (View K ι)} {root : ι} {H h : ℕ} {pg : ℕ → K → ι} {k₀ : K}

/-- What the routing of a page says about its arrays. -/
theorem inner_facts (hR : Routed pview root H pg) (hh : h < H)
    (hv : pview (pg (h + 1) k₀) = some (view piv ch n)) :
    (∀ k, pg (h + 1) k = pg (h + 1) k₀ → route piv ch n k = pg h k) ∧
    (∀ x ∈ pivotSet piv n, pg (h + 1) x = pg (h + 1) k₀) ∧
    ∀ c, c ∈ childSet ch n ↔ ∃ x, pg h x = c ∧ pg (h + 1) x = pg (h + 1) k₀ := by
  have hroute : ∀ k, pg (h + 1) k = pg (h + 1) k₀ → route piv ch n k = pg h k := by
    intro k hk
    obtain ⟨f, P, C, hv', hok⟩ := hR.inner h hh k
    rw [hk, hv] at hv'
    simp only [Option.some.injEq, view, View.inner.injEq] at hv'
    rw [hv'.1]
    exact hok.route_eq
  obtain ⟨f, P, C, hv', hok⟩ := hR.inner h hh k₀
  rw [hv] at hv'
  simp only [Option.some.injEq, view, View.inner.injEq] at hv'
  obtain ⟨rfl, rfl, rfl⟩ := hv'
  refine ⟨hroute, hok.pivot, fun c => ⟨hok.child c, ?_⟩⟩
  rintro ⟨x, rfl, hx⟩
  rw [← hroute x hx]
  exact route_mem x

/-- The keys below a child are those with its index. -/
theorem child_keys (hR : Routed pview root H pg) (hh : h < H)
    (hv : pview (pg (h + 1) k₀) = some (view piv ch n)) (hd : Distinct ch n) {i : ℕ} (hi : i ≤ n) :
    (∃ x, pg h x = ch i ∧ pg (h + 1) x = pg (h + 1) k₀) ∧
      ∀ x, pg h x = ch i → pg (h + 1) x = pg (h + 1) k₀ ∧ lowerBound piv n x = i := by
  obtain ⟨hroute, -, hch⟩ := inner_facts hR hh hv
  obtain ⟨x₀, h₁, h₂⟩ := (hch (ch i)).mp ⟨i, hi, rfl⟩
  refine ⟨⟨x₀, h₁, h₂⟩, fun x hx => ?_⟩
  have hx' : pg (h + 1) x = pg (h + 1) k₀ := (hR.parent h hh _ _ (hx.trans h₁.symm)).trans h₂
  refine ⟨hx', hd _ _ (lowerBound_le _ _ _) hi ?_⟩
  rw [← hx, ← hroute x hx', route]

/-- A page has one parent, and one place among its children. -/
theorem parent_unique (hR : Routed pview root H pg) {g : ℕ} (hg : g < H)
    (hv : pview (pg (g + 1) k₀) = some (view piv ch n)) (hd : Distinct ch n) {i : ℕ} (hi : i ≤ n) {k : K}
    (hh : h ≤ H) (e : ch i = pg h k) : g = h ∧ pg (g + 1) k₀ = pg (h + 1) k ∧ i = lowerBound piv n k := by
  obtain ⟨⟨x, hx, -⟩, hall⟩ := child_keys hR hg hv hd hi
  obtain rfl : g = h := hR.level _ _ _ _ hg.le hh (hx.trans e)
  obtain ⟨h₁, h₂⟩ := hall k e.symm
  exact ⟨rfl, h₁.symm, h₂.symm⟩

/-! ### The keys below a child -/

/-- Strictly above `lo` and at or below `hi`, where these are given. -/
def Within (lo hi : Option K) (x : K) : Prop := (∀ a ∈ lo, a < x) ∧ ∀ b ∈ hi, x ≤ b

/-- The bound left of child `i`. -/
def leftBound (piv : Slots K) (lo : Option K) (i : ℕ) : Option K :=
  if i = 0 then lo else some (piv (i - 1))

/-- The bound right of child `i` among `n` pivots. -/
def rightBound (piv : Slots K) (n : ℕ) (hi : Option K) (i : ℕ) : Option K :=
  if i = n then hi else some (piv i)

/-- The keys below child `i` lie between the pivots around it. -/
theorem child_within (hR : Routed pview root H pg) (hh : h < H)
    (hv : pview (pg (h + 1) k₀) = some (view piv ch n)) (hd : Distinct ch n) {i : ℕ} (hi : i ≤ n)
    {a b : Option K} (hk : ∀ x, pg (h + 1) x = pg (h + 1) k₀ → Within a b x) :
    ∃ x₀, pg h x₀ = ch i ∧
      ∀ x, pg h x = pg h x₀ → Within (leftBound piv a i) (rightBound piv n b i) x := by
  obtain ⟨⟨x₀, hx₀, -⟩, hall⟩ := child_keys hR hh hv hd hi
  refine ⟨x₀, hx₀, fun x hx => ?_⟩
  obtain ⟨hx₁, hx₂⟩ := hall x (hx.trans hx₀)
  obtain ⟨-, hlt, hge⟩ := lowerBound_eq_iff.mp hx₂
  obtain ⟨hlo, hhi⟩ := hk x hx₁
  refine ⟨fun y hy => ?_, fun y hy => ?_⟩
  · unfold leftBound at hy
    split at hy
    next => exact hlo y hy
    next hi0 =>
      obtain rfl := Option.mem_some.mp hy
      exact hlt _ (by omega)
  · unfold rightBound at hy
    split at hy
    next => exact hhi y hy
    next hin =>
      obtain rfl := Option.mem_some.mp hy
      exact hge (by omega)

/-- The parent after it has learnt the pivot and the right half of a split child. -/
theorem parent_step (hR : Routed pview root H pg) (hh : h < H)
    (hv : pview (pg (h + 1) k₀) = some (view piv ch n)) (hs : Sorted piv n) (hd : Distinct ch n)
    (hi : lowerBound piv n k₀ = i) (hmid : pg h mid = pg h k₀)
    (hup : ∃ x, pg h x = pg h k₀ ∧ mid < x) (hr : ∀ k, pg h k ≠ r) :
    Sorted (insertAt piv n i mid) (n + 1) ∧ Distinct (insertAt ch (n + 1) (i + 1) r) (n + 1) ∧
    (∀ k, pg (h + 1) k = pg (h + 1) k₀ →
      route (insertAt piv n i mid) (insertAt ch (n + 1) (i + 1) r) (n + 1) k =
        Routed.splitPg pg h (pg h k₀) r mid h k) ∧
    (∀ x ∈ pivotSet (insertAt piv n i mid) (n + 1), pg (h + 1) x = pg (h + 1) k₀) ∧
    ∀ c, c ∈ childSet (insertAt ch (n + 1) (i + 1) r) (n + 1) ↔
      c = r ∨ ∃ x, pg h x = c ∧ pg (h + 1) x = pg (h + 1) k₀ := by
  obtain ⟨hroute, hpiv, hch⟩ := inner_facts hR hh hv
  have hin : i ≤ n := hi ▸ lowerBound_le piv n k₀
  -- the keys of the child are those with the same lower bound
  have hidx : ∀ k, pg h k = pg h k₀ → lowerBound piv n k = i := by
    intro k hk
    have hk' := hR.parent h hh _ _ hk
    rw [← hi]
    refine (route_eq_iff hd).mp ?_
    rw [hroute k hk', hroute k₀ rfl, hk]
  have hm := lowerBound_eq_iff.mp (hidx mid hmid)
  have hhi : i < n → mid < piv i := by
    intro hlt
    obtain ⟨x, hx, hmx⟩ := hup
    exact hmx.trans_le ((lowerBound_eq_iff.mp (hidx x hx)).2.2 hlt)
  refine ⟨sorted_insertPivot hs hin hm.2.1 hhi, distinct_insertPivot hd hin ?_, fun k hk => ?_,
    fun x hx => ?_, fun c => ?_⟩
  · rw [hch]
    rintro ⟨x, hx, -⟩
    exact hr x hx
  · rw [route_insertPivot hin hm.2.1 hhi, hroute k hk]
    by_cases hc : pg h k = pg h k₀ ∧ mid < k
    · rw [if_pos ⟨hidx k hc.1, hc.2⟩, Routed.splitPg_right hc.1 hc.2]
    · have hne : ¬ (lowerBound piv n k = i ∧ mid < k) := by
        rintro ⟨h₁, h₂⟩
        refine hc ⟨?_, h₂⟩
        rw [← hroute k hk, ← hroute k₀ rfl, route, route, h₁, hi]
      rw [if_neg hne]
      simp [Routed.splitPg, hc]
  · rcases (mem_pivotSet_insertPivot hin).mp hx with rfl | hx
    · exact hR.parent h hh _ _ hmid
    · exact hpiv x hx
  · rw [mem_childSet_insertPivot hin, hch]

/-- The halves of an inner page that was cut at its pivot `s`. -/
theorem halves_step {g : ℕ} (hR : Routed pview root H pg) (hh : g < H)
    (hv : pview (pg (g + 1) k₀) = some (view piv ch n)) (hsort : Sorted piv n) (hd : Distinct ch n)
    (hs : s < n) :
    (∀ k, pg (g + 1) k = pg (g + 1) k₀ → k ≤ piv s →
      route piv ch s k = pg g k ∧ route piv ch s k ∈ childSet ch s) ∧
    (∀ k, pg (g + 1) k = pg (g + 1) k₀ → piv s < k →
      route (dropPiv piv n s p) (dropCh ch n s q) (n - (s + 1)) k = pg g k ∧
      route (dropPiv piv n s p) (dropCh ch n s q) (n - (s + 1)) k ∈
        childSet (dropCh ch n s q) (n - (s + 1))) ∧
    (∀ x ∈ pivotSet piv s, pg (g + 1) x = pg (g + 1) k₀ ∧ x ≤ piv s) ∧
    (∀ x ∈ pivotSet (dropPiv piv n s p) (n - (s + 1)),
      pg (g + 1) x = pg (g + 1) k₀ ∧ piv s < x) ∧
    (∀ c ∈ childSet ch s, ∃ x, pg g x = c ∧ pg (g + 1) x = pg (g + 1) k₀ ∧ x ≤ piv s) ∧
    (∀ c ∈ childSet (dropCh ch n s q) (n - (s + 1)),
      ∃ x, pg g x = c ∧ pg (g + 1) x = pg (g + 1) k₀ ∧ piv s < x) ∧
    ∀ k k', pg (g + 1) k = pg (g + 1) k₀ → pg g k = pg g k' → (k ≤ piv s ↔ k' ≤ piv s) := by
  obtain ⟨hroute, hpiv, hch⟩ := inner_facts hR hh hv
  -- a key is at or below the cut when its child is
  have hside : ∀ k, k ≤ piv s ↔ lowerBound piv n k ≤ s := by
    intro k
    constructor
    · intro hk
      rw [← lowerBound_take hs hk]
      exact lowerBound_le piv s k
    · intro hk
      by_contra hc
      have := lt_lowerBound hsort hs (not_le.mp hc)
      omega
  have hkey : ∀ c, c ∈ childSet ch n → ∀ i ≤ n, ch i = c →
      ∃ x, pg g x = c ∧ pg (g + 1) x = pg (g + 1) k₀ ∧ lowerBound piv n x = i := by
    intro c hc i hi e
    obtain ⟨x, hx₁, hx₂⟩ := (hch c).mp hc
    refine ⟨x, hx₁, hx₂, hd _ _ (lowerBound_le _ _ _) hi ?_⟩
    rw [e, ← hx₁, ← hroute x hx₂, route]
  refine ⟨fun k hk hks => ?_, fun k hk hks => ?_, fun x hx => ?_, fun x hx => ?_, fun c hc => ?_,
    fun c hc => ?_, fun k k' hk e => ?_⟩
  · exact ⟨by rw [route_take hs hks, hroute k hk], route_mem k⟩
  · exact ⟨by rw [route_drop hsort hs hks, hroute k hk], route_mem k⟩
  · obtain ⟨i, hi, rfl⟩ := hx
    exact ⟨hpiv _ ⟨i, by omega, rfl⟩, (hsort i s hi hs).le⟩
  · obtain ⟨i, hi, hin, rfl⟩ := mem_pivotSet_drop hx
    exact ⟨hpiv _ ⟨i, hin, rfl⟩, hsort s i hi hin⟩
  · obtain ⟨i, hi, e⟩ := hc
    obtain ⟨x, h₁, h₂, h₃⟩ := hkey c ⟨i, by omega, e⟩ i (by omega) e
    exact ⟨x, h₁, h₂, (hside x).mpr (by omega)⟩
  · obtain ⟨i, hi, hin, e⟩ := mem_childSet_drop hs hc
    obtain ⟨x, h₁, h₂, h₃⟩ := hkey c ⟨i, hin, e⟩ i hin e
    exact ⟨x, h₁, h₂, not_le.mp fun hc => by have := (hside x).mp hc; omega⟩
  · have hk' := (hR.parent g hh _ _ e).symm.trans hk
    have hlb : lowerBound piv n k = lowerBound piv n k' := by
      rw [← route_eq_iff hd, hroute k hk, hroute k' hk', e]
    rw [hside, hside, hlb]

end Parent

end Fanout

end BEpsilon
