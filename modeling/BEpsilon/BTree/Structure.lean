import BEpsilon.BTree.Refine

/-!
# BEpsilon.BTree.Structure — the shape of the B-tree

`Subtree` says, page by page, what the subtree below a page looks like: all leaves at one depth, sorted
nodes within their capacities, one child more than pivots, and every key between the pivots around it.
`WellFormed` adds what concerns the whole tree.  The invariant of the proofs implies both, so that they
hold after every call.
-/

namespace BEpsilon.BTree

open Slots Fanout PageWorld

section Shape

variable {K V : Type} [LinearOrder K]

/-- The subtree of height `h` below a page, whose keys lie above `lo` and at or below `hi`. -/
def Subtree (N : NodeSizes) (mem : PageId → Option (BNode K V)) :
    ℕ → PageId → Option K → Option K → Prop
  | 0, id, lo, hi => ∃ n, mem id = some (.leaf n) ∧ Sorted n.keys n.size ∧ n.size ≤ N.LEAF_N ∧
      ∀ i < n.size, Within lo hi (n.keys i)
  | h + 1, id, lo, hi => ∃ n, mem id = some (.inner n) ∧ Sorted n.pivots n.size ∧ 1 ≤ n.size ∧
      n.size ≤ N.INNER_N ∧ (∀ i < n.size, Within lo hi (n.pivots i)) ∧
      ∀ i ≤ n.size, Subtree N mem h (n.children i) (leftBound n.pivots lo i)
        (rightBound n.pivots n.size hi i)

/-- Child `e.2` of page `e.1` is the page `id`. -/
def IsChild (mem : PageId → Option (BNode K V)) (id : PageId) (e : PageId × ℕ) : Prop :=
  ∃ n, mem e.1 = some (.inner n) ∧ e.2 ≤ n.size ∧ n.children e.2 = id

/-- The pages in memory are one B-tree below the root page. -/
structure WellFormed (N : NodeSizes) (mem : PageId → Option (BNode K V)) (header : Header) : Prop where
  /-- `header.leafRoot` tells what the root page is. -/
  flag : header.leafRoot = true ↔ ∃ n, mem header.rootID = some (.leaf n)
  tree : ∃ H, Subtree N mem H header.rootID none none
  /-- Every page occurs once as a child, the root page never. -/
  child : ∀ id, mem id ≠ none → id ≠ header.rootID → ∃! e, IsChild mem id e
  root : ∀ e, ¬ IsChild mem header.rootID e

namespace TreeInv

variable {ids : ℕ → PageId} {N : NodeSizes} {mem : PageId → Option (BNode K V)} {header : Header}
  {created H : ℕ} {pg : ℕ → K → PageId} {L : K → Option V}

/-- The subtree of every page. -/
theorem subtree (hT : TreeInv ids N mem header created H pg L) {h : ℕ} (hh : h ≤ H) (k : K)
    {lo hi : Option K} (hk : ∀ x, pg h x = pg h k → Within lo hi x) :
    Subtree N mem h (pg h k) lo hi := by
  induction h generalizing k lo hi with
  | zero =>
    obtain ⟨n, hn, hok, hkeys⟩ := hT.leaf_page k
    exact ⟨n, hn, hok.sorted, hok.size_le, fun i hi => hk _ (hkeys _ ⟨i, hi, rfl⟩)⟩
  | succ h ih =>
    obtain ⟨n, hn, hok, -⟩ := hT.inner_page (h := h) (by omega) k
    obtain ⟨-, hpiv, -⟩ := inner_facts hT.routed (by omega) (views_inner hn)
    refine ⟨n, hn, hok.sorted, hok.size_pos, hok.size_le, fun i hi => hk _ (hpiv _ ⟨i, hi, rfl⟩),
      fun i hi => ?_⟩
    obtain ⟨x₀, hx₀, hwithin⟩ :=
      child_within hT.routed (by omega) (views_inner hn) hok.distinct hi hk
    rw [← hx₀]
    exact ih (by omega) x₀ hwithin

/-- A page below the root is the child of the page above it on its path, and of no other. -/
theorem child_unique (hT : TreeInv ids N mem header created H pg L) {h : ℕ} (hh : h < H) (k : K) :
    ∃! e, IsChild mem (pg h k) e := by
  obtain ⟨n, hn, hok, hchild⟩ := hT.inner_page hh k
  refine ⟨(pg (h + 1) k, lowerBound n.pivots n.size k), ⟨n, hn, lowerBound_le _ _ _, hchild⟩, ?_⟩
  rintro ⟨p, i⟩ ⟨n', hn', hi, e⟩
  dsimp only at hn' hi e
  -- the other parent is in the tree as well
  obtain ⟨j, hj, rfl⟩ := hT.known p (by simp [hn'])
  obtain ⟨g, hg, k', e'⟩ := hT.all j hj
  rw [← e'] at hn' ⊢
  cases g with
  | zero =>
    obtain ⟨m, hm, -⟩ := hT.leaf_page k'
    simp [hm] at hn'
  | succ g =>
    have hok' : InnerNodeOk N n' := hT.nodes _ _ hn'
    obtain ⟨rfl, h₁, h₂⟩ := parent_unique hT.routed (by omega) (views_inner hn') hok'.distinct hi hh.le e
    rw [h₁] at hn'
    obtain rfl := by simpa using hn.symm.trans hn'
    rw [h₁, h₂]

theorem wellFormed [Nonempty K] (hT : TreeInv ids N mem header created H pg L) :
    WellFormed N mem header := by
  obtain ⟨k₀⟩ := ‹Nonempty K›
  refine ⟨?_, ⟨H, ?_⟩, fun id hid hne => ?_, ?_⟩
  · rw [hT.flag, ← hT.routed.top k₀]
    cases H with
    | zero =>
      obtain ⟨n, hn, -⟩ := hT.leaf_page k₀
      simp [hn]
    | succ h =>
      obtain ⟨n, hn, -⟩ := hT.inner_page (Nat.lt_succ_self h) k₀
      simp [hn]
  · rw [← hT.routed.top k₀]
    exact hT.subtree le_rfl k₀ fun _ _ => ⟨by simp, by simp⟩
  · obtain ⟨j, hj, rfl⟩ := hT.known id hid
    obtain ⟨h, hh, k, e⟩ := hT.all j hj
    rcases hh.lt_or_eq with hlt | rfl
    · rw [← e]
      exact hT.child_unique hlt k
    · exact absurd (e.symm.trans (hT.routed.top k)) hne
  · rintro ⟨p, i⟩ ⟨n, hn, hi, e⟩
    dsimp only at hn hi e
    obtain ⟨j, hj, rfl⟩ := hT.known p (by simp [hn])
    obtain ⟨g, hg, k, e'⟩ := hT.all j hj
    rw [← e'] at hn
    cases g with
    | zero =>
      obtain ⟨m, hm, -⟩ := hT.leaf_page k
      simp [hm] at hn
    | succ g =>
      have hok : InnerNodeOk N n := hT.nodes _ _ hn
      obtain ⟨rfl, -⟩ := parent_unique hT.routed (by omega) (views_inner hn) hok.distinct hi le_rfl
        (e.trans (hT.routed.top k₀).symm)
      omega

end TreeInv

end Shape

variable {K V : Type} [LinearOrder K] [DecidableEq V] [Add V] [Inhabited K] [Inhabited V]

/-- After every call of a session the pages are one B-tree below the page that was the root at the
start, and no assert has failed, neither the one of `insertTraversal` that an exclusive descent stands
at a node with a free pivot slot nor any other. -/
theorem session_wellFormed (R : PageRules) (N : NodeSizes) (ops : List (MapOp K V)) :
    Runs (handler R.ideal) (session N ops) (empty {}) fun _ w =>
      w.header.rootID = R.ids 0 ∧ WellFormed N w.mem w.header := by
  refine (session_spec (by simp [PageRules.ideal]) ops).mono fun _ w h => ⟨h.2.rootID, ?_⟩
  obtain ⟨H, pg, hT⟩ := h.2.tree
  exact hT.wellFormed

end BEpsilon.BTree
