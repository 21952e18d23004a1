import BEpsilon.Lib.Routing
import Mathlib.Data.Set.Card

/-!
# BEpsilon.Lib.Census — how many pages a search tree has

When every inner page has two children at least, a level has half as many pages as the one below it: a tree of
height `H` has `2 ^ H` leaves at least, and all its pages together are fewer than twice its leaves.
-/

namespace BEpsilon.Routed

variable {K ι : Type} {view : ι → Option (View K ι)} {root : ι} {H h : ℕ} {pg : ℕ → K → ι}

/-- Every inner page has two children. -/
def Branches (H : ℕ) (pg : ℕ → K → ι) : Prop := ∀ h < H, ∀ k, ∃ k₁ k₂, pg (h + 1) k₁ = pg (h + 1) k ∧
  pg (h + 1) k₂ = pg (h + 1) k ∧ pg h k₁ ≠ pg h k₂

/-- The pages at a height. -/
def pagesAt (pg : ℕ → K → ι) (h : ℕ) : Set ι := Set.range (pg h)

/-- The pages at a height and above it. -/
def pagesFrom (H : ℕ) (pg : ℕ → K → ι) (h : ℕ) : Set ι := {id | ∃ h', h ≤ h' ∧ h' ≤ H ∧ id ∈ pagesAt pg h'}

theorem pagesAt_half [Nonempty K] (hR : Routed view root H pg) (hB : Branches H pg) (hh : h < H) :
    2 * (pagesAt pg (h + 1)).encard ≤ (pagesAt pg h).encard := by
  choose first second hfirst hsecond hne using hB h hh
  choose! rep hrep using fun p (hp : p ∈ pagesAt pg (h + 1)) => hp
  -- a child tells its parent
  have hparent : ∀ p ∈ pagesAt pg (h + 1), ∀ q ∈ pagesAt pg (h + 1), ∀ f f' : K → K,
      (∀ k, pg (h + 1) (f k) = pg (h + 1) k) → (∀ k, pg (h + 1) (f' k) = pg (h + 1) k) →
      pg h (f (rep p)) = pg h (f' (rep q)) → p = q := by
    intro p hp q hq f f' hf hf' e
    rw [← hrep p hp, ← hrep q hq, ← hf (rep p), ← hf' (rep q)]
    exact hR.parent h hh _ _ e
  have hinj : ∀ f : K → K, (∀ k, pg (h + 1) (f k) = pg (h + 1) k) →
      Set.InjOn (fun p => pg h (f (rep p))) (pagesAt pg (h + 1)) :=
    fun f hf p hp q hq e => hparent p hp q hq f f hf hf e
  have hdisjoint : Disjoint ((fun p => pg h (first (rep p))) '' pagesAt pg (h + 1))
      ((fun p => pg h (second (rep p))) '' pagesAt pg (h + 1)) := by
    rw [Set.disjoint_left]
    rintro _ ⟨p, hp, rfl⟩ ⟨q, hq, e⟩
    obtain rfl := hparent q hq p hp second first hsecond hfirst e
    exact hne (rep q) e.symm
  calc 2 * (pagesAt pg (h + 1)).encard
      = ((fun p => pg h (first (rep p))) '' pagesAt pg (h + 1)).encard +
          ((fun p => pg h (second (rep p))) '' pagesAt pg (h + 1)).encard := by
        rw [two_mul, (hinj first hfirst).encard_image, (hinj second hsecond).encard_image]
    _ = ((fun p => pg h (first (rep p))) '' pagesAt pg (h + 1) ∪
          (fun p => pg h (second (rep p))) '' pagesAt pg (h + 1)).encard := (Set.encard_union_eq hdisjoint).symm
    _ ≤ (pagesAt pg h).encard := by
        refine Set.encard_le_encard (Set.union_subset ?_ ?_)
        · rintro _ ⟨p, -, rfl⟩
          exact ⟨_, rfl⟩
        · rintro _ ⟨p, -, rfl⟩
          exact ⟨_, rfl⟩

theorem pagesAt_top [Nonempty K] (hR : Routed view root H pg) : pagesAt pg H = {root} := by
  have hconst : pg H = fun _ => root := funext hR.top
  rw [pagesAt, hconst, Set.range_const]

/-- A tree of height `H` has `2 ^ H` leaves at least. -/
theorem two_pow_le_leaves [Nonempty K] (hR : Routed view root H pg) (hB : Branches H pg) :
    2 ^ H ≤ (pagesAt pg 0).encard := by
  have hlevel : ∀ i ≤ H, 2 ^ i ≤ (pagesAt pg (H - i)).encard := by
    intro i hi
    induction i with
    | zero => simp [hR.pagesAt_top]
    | succ i ih =>
      have hhalf := hR.pagesAt_half hB (h := H - (i + 1)) (by omega)
      rw [show H - (i + 1) + 1 = H - i by omega] at hhalf
      calc (2 : ℕ∞) ^ (i + 1) = 2 * 2 ^ i := by rw [pow_succ, mul_comm]
        _ ≤ 2 * (pagesAt pg (H - i)).encard := by gcongr; exact ih (by omega)
        _ ≤ _ := hhalf
  simpa using hlevel H le_rfl

/-- All pages together are fewer than twice the leaves. -/
theorem pages_lt_two_leaves [Nonempty K] (hR : Routed view root H pg) (hB : Branches H pg) :
    (pagesFrom H pg 0).encard + 1 ≤ 2 * (pagesAt pg 0).encard := by
  have hupper : ∀ i ≤ H, (pagesFrom H pg (H - i)).encard + 1 ≤ 2 * (pagesAt pg (H - i)).encard := by
    intro i hi
    induction i with
    | zero =>
      have htop : pagesFrom H pg H = {root} := by
        refine Set.Subset.antisymm ?_ ?_
        · rintro id ⟨h', h₁, h₂, hid⟩
          rwa [show h' = H by omega, hR.pagesAt_top] at hid
        · rintro id hid
          exact ⟨H, le_rfl, le_rfl, hR.pagesAt_top.symm ▸ hid⟩
      rw [Nat.sub_zero, htop, hR.pagesAt_top, Set.encard_singleton]
      decide
    | succ i ih =>
      have hhalf := hR.pagesAt_half hB (h := H - (i + 1)) (by omega)
      have hih := ih (by omega)
      have hnext : H - (i + 1) + 1 = H - i := by omega
      rw [hnext] at hhalf
      have hsub : pagesFrom H pg (H - (i + 1)) ⊆ pagesAt pg (H - (i + 1)) ∪ pagesFrom H pg (H - i) := by
        rintro id ⟨h', h₁, h₂, hid⟩
        rcases h₁.lt_or_eq with hlt | rfl
        · exact .inr ⟨h', by omega, h₂, hid⟩
        · exact .inl hid
      calc (pagesFrom H pg (H - (i + 1))).encard + 1
          ≤ (pagesAt pg (H - (i + 1))).encard + (pagesFrom H pg (H - i)).encard + 1 := by
            gcongr
            exact (Set.encard_le_encard hsub).trans (Set.encard_union_le _ _)
        _ ≤ (pagesAt pg (H - (i + 1))).encard + 2 * (pagesAt pg (H - i)).encard := by
            rw [add_assoc]
            gcongr
        _ ≤ (pagesAt pg (H - (i + 1))).encard + (pagesAt pg (H - (i + 1))).encard := by gcongr
        _ = 2 * (pagesAt pg (H - (i + 1))).encard := (two_mul _).symm
  simpa using hupper H le_rfl

end BEpsilon.Routed
