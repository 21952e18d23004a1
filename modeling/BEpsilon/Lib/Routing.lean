import Mathlib.Data.Set.Basic
import Mathlib.Order.Basic
import Mathlib.Tactic.Common

/-!
# BEpsilon.Lib.Routing — search trees over a store of pages

A page shows a search its keys (a leaf) or a routing function with its pivots and its children (an
inner page): its `View`.  `Routed view root H pg` says that the pages below `root` form a search tree
of height `H`, by naming the page `pg h k` at height `h` on the path of every key `k`.  The clauses
are local: a page routes each key of its range to the page below, its keys and pivots lie in its own
range, each page has one height and one parent.  `Routed.split` replaces one page by two below a
parent that learns the new pivot, `Routed.grow` puts a new level below the root.
-/

namespace BEpsilon

/-- What a page shows to a search. -/
inductive View (K ι : Type) : Type
  | leaf (keys : Set K)
  | inner (route : K → ι) (pivots : Set K) (children : Set ι)

variable {K ι : Type}

/-- The clauses of an inner page at height `h + 1` on the path of `k`. -/
structure InnerOk (pg : ℕ → K → ι) (h : ℕ) (k : K) (route : K → ι) (P : Set K) (C : Set ι) :
    Prop where
  route_eq : route k = pg h k
  pivot : ∀ x ∈ P, pg (h + 1) x = pg (h + 1) k
  child : ∀ c ∈ C, ∃ x, pg h x = c ∧ pg (h + 1) x = pg (h + 1) k
  mem : route k ∈ C

/-- The pages below `root` form a search tree of height `H`, `pg h k` being the page at height `h`
on the path of `k`. -/
structure Routed (view : ι → Option (View K ι)) (root : ι) (H : ℕ) (pg : ℕ → K → ι) : Prop where
  top : ∀ k, pg H k = root
  leaf : ∀ k, ∃ keys, view (pg 0 k) = some (.leaf keys) ∧ ∀ x ∈ keys, pg 0 x = pg 0 k
  inner : ∀ h < H, ∀ k, ∃ route P C, view (pg (h + 1) k) = some (.inner route P C) ∧
    InnerOk pg h k route P C
  level : ∀ h h' k k', h ≤ H → h' ≤ H → pg h k = pg h' k' → h = h'
  parent : ∀ h < H, ∀ k k', pg h k = pg h k' → pg (h + 1) k = pg (h + 1) k'

namespace Routed

variable {view : ι → Option (View K ι)} {root : ι} {H : ℕ} {pg : ℕ → K → ι}

/-- Pages of two heights differ. -/
theorem page_ne (hR : Routed view root H pg) {g g' : ℕ} {k k' : K} (hg : g ≤ H) (hg' : g' ≤ H)
    (hne : g ≠ g') : pg g k ≠ pg g' k' := fun e => hne (hR.level g g' k k' hg hg' e)

/-- The tree only depends on the views of its own pages. -/
theorem congr (hR : Routed view root H pg) {view' : ι → Option (View K ι)}
    (hv : ∀ h ≤ H, ∀ k, view' (pg h k) = view (pg h k)) : Routed view' root H pg where
  top := hR.top
  leaf k := by rw [hv 0 (by omega)]; exact hR.leaf k
  inner h hh k := by rw [hv (h + 1) (by omega)]; exact hR.inner h hh k
  level := hR.level
  parent := hR.parent

/-- A leaf may change its keys, as long as they are keys of its range. -/
theorem set_leaf (hR : Routed view root H pg) {view' : ι → Option (View K ι)} {k : K} {keys : Set K}
    (hq : view' (pg 0 k) = some (.leaf keys)) (hk : ∀ x ∈ keys, pg 0 x = pg 0 k)
    (hv : ∀ id, id ≠ pg 0 k → view' id = view id) : Routed view' root H pg where
  top := hR.top
  leaf k' := by
    by_cases e : pg 0 k' = pg 0 k
    · exact ⟨keys, by rw [e, hq], fun x hx => (hk x hx).trans e.symm⟩
    · rw [hv _ e]; exact hR.leaf k'
  inner h hh k' := by
    have hne : pg (h + 1) k' ≠ pg 0 k := fun e => by
      have := hR.level _ _ _ _ (by omega) (by omega) e
      omega
    rw [hv _ hne]; exact hR.inner h hh k'
  level := hR.level
  parent := hR.parent

section Split

variable [LinearOrder K]

open Classical in
/-- The paths after the page `q` at height `h` has given its keys above `mid` to `r`. -/
noncomputable def splitPg (pg : ℕ → K → ι) (h : ℕ) (q r : ι) (mid : K) : ℕ → K → ι := fun h' k =>
  if h' = h ∧ pg h k = q ∧ mid < k then r else pg h' k

theorem splitPg_of_ne {h h' : ℕ} {q r : ι} {mid : K} (hne : h' ≠ h) (k : K) :
    splitPg pg h q r mid h' k = pg h' k := by
  simp [splitPg, hne]

theorem splitPg_of_page_ne {h : ℕ} {q r : ι} {mid k : K} (hne : pg h k ≠ q) (h' : ℕ) :
    splitPg pg h q r mid h' k = pg h' k := by
  simp [splitPg, hne]

theorem splitPg_right {h : ℕ} {q r : ι} {mid k : K} (hq : pg h k = q) (hk : mid < k) :
    splitPg pg h q r mid h k = r := by
  simp [splitPg, hq, hk]

theorem splitPg_left {h : ℕ} {q r : ι} {mid k : K} (hk : k ≤ mid) (h' : ℕ) :
    splitPg pg h q r mid h' k = pg h' k := by
  simp [splitPg, not_lt.mpr hk]

/-- One page of the tree gives its keys above `mid` to the fresh page `r`: the page is the one at
height `h` on the path of `k₀`, `p` and `C` are the pivots and children of its parent afterwards. -/
structure SplitStep (view view' : ι → Option (View K ι)) (H : ℕ) (pg : ℕ → K → ι) (h : ℕ) (k₀ mid : K)
    (r : ι) (routeP : K → ι) (P : Set K) (C : Set ι) : Prop where
  lt : h < H
  fresh : ∀ h' ≤ H, ∀ k, pg h' k ≠ r
  mid_mem : pg h mid = pg h k₀
  above : ∃ x, pg h x = pg h k₀ ∧ mid < x
  parent : view' (pg (h + 1) k₀) = some (.inner routeP P C)
  route : ∀ k, pg (h + 1) k = pg (h + 1) k₀ → routeP k = splitPg pg h (pg h k₀) r mid h k
  pivots : ∀ x ∈ P, pg (h + 1) x = pg (h + 1) k₀
  children : ∀ c, c ∈ C ↔ c = r ∨ ∃ x, pg h x = c ∧ pg (h + 1) x = pg (h + 1) k₀
  leaves : h = 0 → ∃ kl kr, view' (pg 0 k₀) = some (.leaf kl) ∧ view' r = some (.leaf kr) ∧
    (∀ x ∈ kl, pg 0 x = pg 0 k₀ ∧ x ≤ mid) ∧ ∀ x ∈ kr, pg 0 x = pg 0 k₀ ∧ mid < x
  inners : ∀ g, h = g + 1 → ∃ fl Pl Cl fr Pr Cr,
    view' (pg h k₀) = some (.inner fl Pl Cl) ∧ view' r = some (.inner fr Pr Cr) ∧
    (∀ k, pg h k = pg h k₀ → k ≤ mid → fl k = pg g k ∧ fl k ∈ Cl) ∧
    (∀ k, pg h k = pg h k₀ → mid < k → fr k = pg g k ∧ fr k ∈ Cr) ∧
    (∀ x ∈ Pl, pg h x = pg h k₀ ∧ x ≤ mid) ∧ (∀ x ∈ Pr, pg h x = pg h k₀ ∧ mid < x) ∧
    (∀ c ∈ Cl, ∃ x, pg g x = c ∧ pg h x = pg h k₀ ∧ x ≤ mid) ∧
    (∀ c ∈ Cr, ∃ x, pg g x = c ∧ pg h x = pg h k₀ ∧ mid < x)
  /-- Every child of the page stays on one side of `mid`. -/
  side : ∀ g, h = g + 1 → ∀ k k', pg h k = pg h k₀ → pg g k = pg g k' → (k ≤ mid ↔ k' ≤ mid)
  others : ∀ id, id ≠ pg (h + 1) k₀ → id ≠ pg h k₀ → id ≠ r → view' id = view id

section SplitStep

variable {view' : ι → Option (View K ι)} {h : ℕ} {k₀ mid : K} {r : ι} {routeP : K → ι} {P : Set K}
  {C : Set ι}

/-- A page away from the split keeps its view. -/
theorem SplitStep.view_eq (hS : SplitStep view view' H pg h k₀ mid r routeP P C)
    {g : ℕ} {k : K} (hg : g ≤ H) (hp : pg g k ≠ pg (h + 1) k₀) (hq : pg g k ≠ pg h k₀) :
    view' (pg g k) = view (pg g k) := hS.others _ hp hq (hS.fresh g hg k)

theorem SplitStep.leaf (hR : Routed view root H pg)
    (hS : SplitStep view view' H pg h k₀ mid r routeP P C) (k : K) :
    ∃ keys, view' (splitPg pg h (pg h k₀) r mid 0 k) = some (.leaf keys) ∧
      ∀ x ∈ keys, splitPg pg h (pg h k₀) r mid 0 x = splitPg pg h (pg h k₀) r mid 0 k := by
  have hH := hS.lt
  have hp : pg 0 k ≠ pg (h + 1) k₀ := hR.page_ne (by omega) (by omega) (by omega)
  obtain ⟨keys, hkeys, hx⟩ := hR.leaf k
  rcases Nat.eq_zero_or_pos h with rfl | hpos
  · obtain ⟨kl, kr, hl, hr, hkl, hkr⟩ := hS.leaves rfl
    by_cases hk : pg 0 k = pg 0 k₀
    · rcases le_or_gt k mid with hkm | hkm
      · rw [splitPg_left hkm, hk]
        refine ⟨kl, hl, fun x hx => ?_⟩
        rw [splitPg_left (hkl x hx).2, (hkl x hx).1]
      · rw [splitPg_right hk hkm]
        exact ⟨kr, hr, fun x hx => splitPg_right (hkr x hx).1 (hkr x hx).2⟩
    · rw [splitPg_of_page_ne hk, hS.view_eq (by omega) hp hk]
      refine ⟨keys, hkeys, fun x hx' => ?_⟩
      rw [splitPg_of_page_ne (by rw [hx x hx']; exact hk)]
      exact hx x hx'
  · have hq : pg 0 k ≠ pg h k₀ := hR.page_ne (by omega) (by omega) (by omega)
    rw [splitPg_of_ne (by omega), hS.view_eq (by omega) hp hq]
    exact ⟨keys, hkeys, fun x hx' => by rw [splitPg_of_ne (by omega)]; exact hx x hx'⟩

/-- Inner pages away from the split and from its parent. -/
theorem SplitStep.inner_other (hR : Routed view root H pg)
    (hS : SplitStep view view' H pg h k₀ mid r routeP P C) {g : ℕ} (hg : g < H) {k : K}
    (hp : pg (g + 1) k ≠ pg (h + 1) k₀) (hq : pg (g + 1) k ≠ pg h k₀) :
    ∃ f P' C', view' (splitPg pg h (pg h k₀) r mid (g + 1) k) = some (.inner f P' C') ∧
      InnerOk (splitPg pg h (pg h k₀) r mid) g k f P' C' := by
  have hH := hS.lt
  -- on the range of the page neither level of the path moves
  have hstay : ∀ x, pg (g + 1) x = pg (g + 1) k →
      splitPg pg h (pg h k₀) r mid (g + 1) x = pg (g + 1) x ∧
      splitPg pg h (pg h k₀) r mid g x = pg g x := by
    intro x hx
    refine ⟨?_, ?_⟩
    · by_cases e : g + 1 = h
      · subst e
        rw [splitPg_of_page_ne (by rw [hx]; exact hq)]
      · rw [splitPg_of_ne e]
    · by_cases e : g = h
      · subst e
        rw [splitPg_of_page_ne fun e => hp (hx.symm.trans (hR.parent g hg _ _ e))]
      · rw [splitPg_of_ne e]
  obtain ⟨f, P', C', hview, hok⟩ := hR.inner g hg k
  refine ⟨f, P', C', ?_, ?_, fun x hx => ?_, fun c hc => ?_, hok.mem⟩
  · rw [(hstay k rfl).1, hS.view_eq (by omega) hp hq]
    exact hview
  · rw [(hstay k rfl).2]
    exact hok.route_eq
  · have hx' := hok.pivot x hx
    rw [(hstay k rfl).1, (hstay x hx').1]
    exact hx'
  · obtain ⟨x, hx₁, hx₂⟩ := hok.child c hc
    refine ⟨x, ?_, ?_⟩
    · rw [(hstay x hx₂).2]; exact hx₁
    · rw [(hstay k rfl).1, (hstay x hx₂).1]; exact hx₂

/-- The two halves of a split inner page. -/
theorem SplitStep.inner_halves {g : ℕ}
    (hS : SplitStep view view' H pg (g + 1) k₀ mid r routeP P C) {k : K}
    (hk : pg (g + 1) k = pg (g + 1) k₀) :
    ∃ f P' C', view' (splitPg pg (g + 1) (pg (g + 1) k₀) r mid (g + 1) k) =
        some (.inner f P' C') ∧
      InnerOk (splitPg pg (g + 1) (pg (g + 1) k₀) r mid) g k f P' C' := by
  obtain ⟨fl, Pl, Cl, fr, Pr, Cr, hl, hr, hfl, hfr, hPl, hPr, hCl, hCr⟩ := hS.inners g rfl
  rcases le_or_gt k mid with hkm | hkm
  · refine ⟨fl, Pl, Cl, ?_, ?_, fun x hx => ?_, fun c hc => ?_, (hfl k hk hkm).2⟩
    · rw [splitPg_left hkm, hk]; exact hl
    · rw [splitPg_left hkm]; exact (hfl k hk hkm).1
    · rw [splitPg_left hkm, splitPg_left (hPl x hx).2, hk]; exact (hPl x hx).1
    · obtain ⟨x, hx₁, hx₂, hx₃⟩ := hCl c hc
      exact ⟨x, by rwa [splitPg_left hx₃],
        by rw [splitPg_left hkm, splitPg_left hx₃, hk]; exact hx₂⟩
  · refine ⟨fr, Pr, Cr, ?_, ?_, fun x hx => ?_, fun c hc => ?_, (hfr k hk hkm).2⟩
    · rw [splitPg_right hk hkm]; exact hr
    · rw [splitPg_of_ne (by omega)]; exact (hfr k hk hkm).1
    · rw [splitPg_right hk hkm, splitPg_right (hPr x hx).1 (hPr x hx).2]
    · obtain ⟨x, hx₁, hx₂, hx₃⟩ := hCr c hc
      exact ⟨x, by rwa [splitPg_of_ne (by omega)],
        by rw [splitPg_right hk hkm, splitPg_right hx₂ hx₃]⟩

/-- The parent, which has learnt the pivot and the child. -/
theorem SplitStep.inner_parent (hR : Routed view root H pg)
    (hS : SplitStep view view' H pg h k₀ mid r routeP P C) {k : K}
    (hk : pg (h + 1) k = pg (h + 1) k₀) :
    ∃ f P' C', view' (splitPg pg h (pg h k₀) r mid (h + 1) k) = some (.inner f P' C') ∧
      InnerOk (splitPg pg h (pg h k₀) r mid) h k f P' C' := by
  have hsame : ∀ x, splitPg pg h (pg h k₀) r mid (h + 1) x = pg (h + 1) x :=
    fun x => splitPg_of_ne (by omega) x
  refine ⟨routeP, P, C, ?_, hS.route k hk, fun x hx => ?_, fun c hc => ?_, ?_⟩
  · rw [hsame, hk]; exact hS.parent
  · rw [hsame, hsame, hk]; exact hS.pivots x hx
  · simp only [hsame]
    rcases (hS.children c).mp hc with rfl | ⟨x, rfl, hx⟩
    · obtain ⟨x, hx, hlt⟩ := hS.above
      exact ⟨x, splitPg_right hx hlt, by rw [hk]; exact hR.parent h hS.lt _ _ hx⟩
    · by_cases hq : pg h x = pg h k₀
      · exact ⟨mid, by rw [splitPg_left le_rfl, hS.mid_mem, hq],
          by rw [hk]; exact hR.parent h hS.lt _ _ hS.mid_mem⟩
      · exact ⟨x, splitPg_of_page_ne hq h, by rw [hk]; exact hx⟩
  · rw [hS.children, hS.route k hk]
    by_cases hc : pg h k = pg h k₀ ∧ mid < k
    · exact .inl (splitPg_right hc.1 hc.2)
    · exact .inr ⟨k, by simp [splitPg, hc], hk⟩

theorem SplitStep.level (hR : Routed view root H pg)
    (hS : SplitStep view view' H pg h k₀ mid r routeP P C) {g g' : ℕ} {k k' : K} (hg : g ≤ H)
    (hg' : g' ≤ H)
    (e : splitPg pg h (pg h k₀) r mid g k = splitPg pg h (pg h k₀) r mid g' k') : g = g' := by
  unfold splitPg at e
  split at e
  next hc =>
    split at e
    next hc' => omega
    next => exact absurd e.symm (hS.fresh g' hg' k')
  next hc =>
    split at e
    next => exact absurd e (hS.fresh g hg k)
    next => exact hR.level g g' k k' hg hg' e

theorem SplitStep.one_parent (hR : Routed view root H pg)
    (hS : SplitStep view view' H pg h k₀ mid r routeP P C) {g : ℕ} (hg : g < H) {k k' : K}
    (e : splitPg pg h (pg h k₀) r mid g k = splitPg pg h (pg h k₀) r mid g k') :
    splitPg pg h (pg h k₀) r mid (g + 1) k = splitPg pg h (pg h k₀) r mid (g + 1) k' := by
  have hH := hS.lt
  by_cases e₁ : g + 1 = h
  · -- children of the page that was split
    subst e₁
    rw [splitPg_of_ne (by omega), splitPg_of_ne (by omega)] at e
    have e' := hR.parent g hg k k' e
    by_cases hk : pg (g + 1) k = pg (g + 1) k₀
    · have hs := hS.side g rfl k k' hk e
      rcases le_or_gt k mid with hkm | hkm
      · rw [splitPg_left hkm, splitPg_left (hs.mp hkm)]
        exact e'
      · rw [splitPg_right hk hkm, splitPg_right (e'.symm.trans hk)
          (not_le.mp fun hc => absurd (hs.mpr hc) (not_le.mpr hkm))]
    · rw [splitPg_of_page_ne hk, splitPg_of_page_ne (by rw [← e']; exact hk)]
      exact e'
  · rw [splitPg_of_ne e₁, splitPg_of_ne e₁]
    by_cases e₂ : g = h
    · -- the two halves have the same parent
      subst e₂
      unfold splitPg at e
      split at e
      next hc =>
        split at e
        next hc' => exact hR.parent _ hg _ _ (hc.2.1.trans hc'.2.1.symm)
        next => exact absurd e.symm (hS.fresh _ hg.le k')
      next hc =>
        split at e
        next => exact absurd e (hS.fresh _ hg.le k)
        next => exact hR.parent _ hg _ _ e
    · rw [splitPg_of_ne e₂, splitPg_of_ne e₂] at e
      exact hR.parent g hg k k' e

/-- A split keeps the search tree. -/
theorem split (hR : Routed view root H pg)
    (hS : SplitStep view view' H pg h k₀ mid r routeP P C) :
    Routed view' root H (splitPg pg h (pg h k₀) r mid) where
  top k := by
    have hH := hS.lt
    rw [splitPg_of_ne (by omega)]
    exact hR.top k
  leaf := hS.leaf hR
  inner g hg k := by
    have hH := hS.lt
    by_cases hp : pg (g + 1) k = pg (h + 1) k₀
    · obtain rfl : h = g := by have := hR.level _ _ _ _ (by omega) (by omega) hp; omega
      exact hS.inner_parent hR hp
    · by_cases hq : pg (g + 1) k = pg h k₀
      · obtain rfl : h = g + 1 := (hR.level _ _ _ _ (by omega) (by omega) hq).symm
        exact hS.inner_halves hq
      · exact hS.inner_other hR hg hp hq
  level g g' k k' hg hg' e := hS.level hR hg hg' e
  parent g hg k k' e := hS.one_parent hR hg e

end SplitStep

end Split

/-! ### A new level below the root -/

open Classical in
/-- The paths after the root page has handed its contents to the pages `f k`, one level down. -/
noncomputable def growPg (pg : ℕ → K → ι) (H : ℕ) (root : ι) (f : K → ι) : ℕ → K → ι := fun h k =>
  if h = H + 1 then root else if h = H then f k else pg h k

theorem growPg_top {root : ι} {f : K → ι} (k : K) : growPg pg H root f (H + 1) k = root := by
  simp [growPg]

theorem growPg_new {root : ι} {f : K → ι} (k : K) : growPg pg H root f H k = f k := by
  simp [growPg]

theorem growPg_old {root : ι} {f : K → ι} {h : ℕ} (hh : h < H) (k : K) :
    growPg pg H root f h k = pg h k := by
  rw [growPg, if_neg (by omega), if_neg (by omega)]

/-- The root page hands its contents to fresh pages, each key of its range to the page `f k`, and
routes to them: the tree has grown by one level. -/
theorem grow (hR : Routed view root H pg) {view' : ι → Option (View K ι)} {f : K → ι} {P : Set K}
    {C : Set ι} (hfresh : ∀ k, ∀ h ≤ H, ∀ k', f k ≠ pg h k')
    (hroot : view' root = some (.inner f P C)) (hC : ∀ c, c ∈ C ↔ ∃ k, f k = c)
    (hleaf : H = 0 → ∀ k, ∃ keys, view' (f k) = some (.leaf keys) ∧ ∀ x ∈ keys, f x = f k)
    (hinner : ∀ g, H = g + 1 → ∀ k, ∃ fk Pk Ck, view' (f k) = some (.inner fk Pk Ck) ∧
      fk k = pg g k ∧ fk k ∈ Ck ∧ (∀ x ∈ Pk, f x = f k) ∧
      ∀ c ∈ Ck, ∃ x, pg g x = c ∧ f x = f k)
    (hside : ∀ g, H = g + 1 → ∀ k k', pg g k = pg g k' → f k = f k')
    (hv : ∀ id, id ≠ root → (∀ k, id ≠ f k) → view' id = view id) :
    Routed view' root (H + 1) (growPg pg H root f) := by
  have hview : ∀ h < H, ∀ k, view' (pg h k) = view (pg h k) := fun h hh k =>
    hv _ (by rw [← hR.top k]; exact hR.page_ne (by omega) le_rfl (by omega))
      fun k' e => hfresh k' h (by omega) k e.symm
  refine ⟨growPg_top, fun k => ?_, fun h hh k => ?_, fun h h' k k' hh hh' e => ?_,
    fun h hh k k' e => ?_⟩
  · rcases Nat.eq_zero_or_pos H with rfl | hpos
    · simpa only [growPg_new] using hleaf rfl k
    · simpa only [growPg_old hpos, hview 0 hpos] using hR.leaf k
  · rcases Nat.lt_trichotomy (h + 1) H with hlt | rfl | hgt
    · obtain ⟨f', P', C', hv', hok⟩ := hR.inner h (by omega) k
      refine ⟨f', P', C', by rwa [growPg_old hlt, hview _ hlt], ?_, fun x hx => ?_, fun c hc => ?_,
        hok.mem⟩
      · rw [growPg_old (by omega)]; exact hok.route_eq
      · rw [growPg_old hlt, growPg_old hlt]; exact hok.pivot x hx
      · obtain ⟨x, hx₁, hx₂⟩ := hok.child c hc
        exact ⟨x, by rwa [growPg_old (by omega)], by rwa [growPg_old hlt, growPg_old hlt]⟩
    · obtain ⟨fk, Pk, Ck, hv', hroute, hmem, hP, hCk⟩ := hinner h rfl k
      refine ⟨fk, Pk, Ck, by rwa [growPg_new], ?_, fun x hx => ?_, fun c hc => ?_, hmem⟩
      · rw [growPg_old (by omega)]; exact hroute
      · rw [growPg_new, growPg_new]; exact hP x hx
      · obtain ⟨x, hx₁, hx₂⟩ := hCk c hc
        exact ⟨x, by rwa [growPg_old (by omega)], by rwa [growPg_new, growPg_new]⟩
    · obtain rfl : h = H := by omega
      refine ⟨f, P, C, by rw [growPg_top]; exact hroot, by rw [growPg_new], fun x _ => ?_,
        fun c hc => ?_, (hC _).mpr ⟨k, rfl⟩⟩
      · rw [growPg_top, growPg_top]
      · obtain ⟨x, hx⟩ := (hC c).mp hc
        exact ⟨x, by rwa [growPg_new], by rw [growPg_top, growPg_top]⟩
  · -- heights
    have hne : ∀ h ≤ H, ∀ k, growPg pg H root f h k ≠ root := by
      intro h hh k e
      rcases Nat.lt_or_ge h H with hlt | hge
      · rw [growPg_old hlt, ← hR.top k] at e
        exact hR.page_ne (by omega) le_rfl (by omega) e
      · obtain rfl : h = H := by omega
        rw [growPg_new, ← hR.top k] at e
        exact hfresh k h le_rfl k e
    rcases Nat.lt_or_ge H h with hgt | hle
    · obtain rfl : h = H + 1 := by omega
      rcases Nat.lt_or_ge H h' with hgt' | hle'
      · omega
      · rw [growPg_top] at e
        exact absurd e.symm (hne h' hle' k')
    · rcases Nat.lt_or_ge H h' with hgt' | hle'
      · obtain rfl : h' = H + 1 := by omega
        rw [growPg_top] at e
        exact absurd e (hne h hle k)
      · rcases Nat.lt_or_ge h H with hlt | hge <;> rcases Nat.lt_or_ge h' H with hlt' | hge'
        · rw [growPg_old hlt, growPg_old hlt'] at e
          exact hR.level h h' k k' hle hle' e
        · obtain rfl : h' = H := by omega
          rw [growPg_old hlt, growPg_new] at e
          exact absurd e.symm (hfresh k' h hle k)
        · obtain rfl : h = H := by omega
          rw [growPg_old hlt', growPg_new] at e
          exact absurd e (hfresh k h' hle' k')
        · omega
  · rcases Nat.lt_trichotomy (h + 1) H with hlt | rfl | hgt
    · rw [growPg_old (by omega), growPg_old (by omega)] at e
      rw [growPg_old hlt, growPg_old hlt]
      exact hR.parent h (by omega) k k' e
    · rw [growPg_old (by omega), growPg_old (by omega)] at e
      rw [growPg_new, growPg_new]
      exact hside h rfl k k' e
    · obtain rfl : h = H := by omega
      rw [growPg_top, growPg_top]

end Routed

end BEpsilon
