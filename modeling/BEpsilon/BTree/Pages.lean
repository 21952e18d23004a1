import BEpsilon.Lib.Census
import BEpsilon.BTree.Filled
import BEpsilon.BTree.Structure

/-!
# BEpsilon.BTree.Pages — how many pages a B-tree has

A call keeps all nodes within their arrays and an insert adds one leaf at most; every inner node has two children.
So after `m` inserts, whatever other calls there are, the tree has at most `m + 1` leaves and `2 * m + 1` pages, and
its height is at most the logarithm of `m + 1`.
-/

namespace BEpsilon.BTree

open Slots Buffer

variable {K V : Type}

/-- Is the call an insert? -/
def isInsert : MapOp K V → Bool
  | .insert _ _ => true
  | _ => false

/-- How many of the calls are inserts. -/
def inserts (ops : List (MapOp K V)) : ℕ := ops.countP isInsert

section Count

variable [LinearOrder K]

variable {ids : ℕ → PageId} {N : NodeSizes} {mem : PageId → Option (BNode K V)} {header : Header} {created H : ℕ}
  {pg : ℕ → K → PageId} {L : K → Option V}

namespace TreeInv

/-- Every inner node has two children. -/
theorem branches (hT : TreeInv ids N mem header created H pg L) : Routed.Branches H pg := by
  intro h hh k
  obtain ⟨n, hn, hok, -⟩ := hT.inner_page hh k
  have hsize := hok.size_pos
  have hkeys := fun {i} hi => (Fanout.child_keys hT.routed hh (views_inner hn) hok.distinct (i := i) hi).1
  obtain ⟨k₁, h₁, hk₁⟩ := hkeys (Nat.zero_le n.size)
  obtain ⟨k₂, h₂, hk₂⟩ := hkeys hsize
  refine ⟨k₁, k₂, hk₁, hk₂, fun e => ?_⟩
  have := hok.distinct 0 1 (Nat.zero_le _) hsize (h₁.symm.trans (e.trans h₂))
  omega

variable [Nonempty K]

/-- The pages of a tree of `c` leaves. -/
theorem size_le (hT : TreeInv ids N mem header created H pg L) (hinj : ∀ i j, ids i = ids j → i = j) {c : ℕ}
    (hc : (leafPages mem).encard ≤ c) : created + 1 ≤ 2 * c ∧ 2 ^ H ≤ c := by
  have hleaf : Routed.pagesAt pg 0 ⊆ leafPages mem := by
    rintro _ ⟨k, rfl⟩
    obtain ⟨n, hn, -⟩ := hT.leaf_page k
    exact ⟨n, hn⟩
  have hall : (((Finset.range created).image ids : Finset PageId) : Set PageId) ⊆ Routed.pagesFrom H pg 0 := by
    intro id hid
    obtain ⟨i, hi, rfl⟩ := Finset.mem_image.mp (Finset.mem_coe.mp hid)
    obtain ⟨h, hh, k, e⟩ := hT.all i (Finset.mem_range.mp hi)
    exact ⟨h, Nat.zero_le _, hh, k, e⟩
  have hcard : ((created : ℕ) : ℕ∞) ≤ (Routed.pagesFrom H pg 0).encard := by
    have h := Set.encard_le_encard hall
    rwa [Set.encard_coe_eq_coe_finsetCard, Finset.card_image_of_injective _ hinj, Finset.card_range] at h
  have hleaves := (Set.encard_le_encard hleaf).trans hc
  constructor
  · have h : ((created + 1 : ℕ) : ℕ∞) ≤ ((2 * c : ℕ) : ℕ∞) := by
      push_cast
      calc (created : ℕ∞) + 1 ≤ (Routed.pagesFrom H pg 0).encard + 1 := by gcongr
        _ ≤ 2 * (Routed.pagesAt pg 0).encard := hT.routed.pages_lt_two_leaves hT.branches
        _ ≤ 2 * c := by gcongr
    exact_mod_cast h
  · have h : ((2 ^ H : ℕ) : ℕ∞) ≤ (c : ℕ∞) := by
      push_cast
      exact (hT.routed.two_pow_le_leaves hT.branches).trans hleaves
    exact_mod_cast h

end TreeInv

variable {R : PageRules} {N : NodeSizes} {w : PageWorld (BNode K V) Header} {root : PageId} {c : ℕ}

/-- Between two calls: the pages of a tree of `c` leaves, and its height. -/
theorem AtRest.pages_le [Inhabited K] [Inhabited V] (hw : AtRest R N root L w) (hP : Filled R N c w.mem w.created) :
    w.created + 1 ≤ 2 * c ∧ ∃ H, Subtree N w.mem H w.header.rootID none none ∧ 2 ^ H ≤ c := by
  obtain ⟨H, pg, hT⟩ := hw.tree
  obtain ⟨hpages, hheight⟩ := hT.size_le R.ids_inj hP.leaves
  refine ⟨hpages, H, ?_, hheight⟩
  rw [← hT.routed.top default]
  exact hT.subtree le_rfl default fun _ _ => ⟨by simp, by simp⟩

end Count

section Calls

variable [LinearOrder K] [DecidableEq V] [Add V] [Inhabited K] [Inhabited V]

variable {R : PageRules} {N : NodeSizes} {mem : PageId → Option (BNode K V)} {k : ℕ} {c : ℕ∞}

omit [LinearOrder K] [DecidableEq V] [Add V] in
/-- The constructor writes an empty leaf. -/
theorem create_fills : Fills R (Fit R N) (create : BProg K V Unit) (fun _ => none) 0
    fun _ mem' k' => Filled R N 1 mem' k' := by
  simp only [create, Prog.bind_def]
  refine fills_createPage (fills_modifyHeader fun _ => fills_pinPage ?_)
  have hfit : BLeafNode.InBounds N (⟨fun _ => default, fun _ => default, 0⟩ : BLeafNode K V) :=
    ⟨Nat.zero_le _, fun _ _ => rfl, fun _ _ => rfl⟩
  have hnone : Filled R N 0 (fun _ => none : PageId → Option (BNode K V)) (0 + 1) := by
    refine ⟨by simp, ?_⟩
    rw [nonpos_iff_eq_zero, Set.encard_eq_zero]
    simp [leafPages]
  have hleaf : Filled R N (0 + 1) (Function.update (fun _ => none) (R.ids 0) (some (.leaf _))) (0 + 1) :=
    hnone.add_leaf hfit
  rw [zero_add] at hleaf
  exact fills_write hfit (fills_unpinPage_last hleaf)

/-- One call. -/
theorem call_fills (hR : R.asserts = true) (hP : Filled R N c mem k) (op : MapOp K V) :
    Fills R (Fit R N) (call N op) mem k fun _ mem' k' => Filled R N (c + (inserts [op] : ℕ)) mem' k' := by
  have hsame : inserts [op] = 0 → ∀ (mem' : PageId → Option (BNode K V)) (k' : ℕ), Filled R N c mem' k' →
      Filled R N (c + (inserts [op] : ℕ)) mem' k' := by
    intro h mem' k' hP'
    rwa [h, Nat.cast_zero, add_zero]
  cases op with
  | insert key value =>
    exact fills_bind ((insert_fills hR hP key value).mono fun _ mem' k' h => fills_ret h)
  | update key value =>
    exact fills_bind ((update_fills hP key value).mono fun _ mem' k' h => fills_ret (hsame rfl _ _ h))
  | erase key =>
    exact fills_bind ((erase_fills hR hP key).mono fun _ mem' k' h => fills_ret (hsame rfl _ _ h))
  | find key =>
    refine fills_bind ((find_fills key).mono ?_)
    rintro o _ _ ⟨rfl, rfl⟩
    exact fills_ret (hsame rfl _ _ hP)

omit [LinearOrder K] [DecidableEq V] [Add V] [Inhabited K] [Inhabited V] in
theorem inserts_cons (op : MapOp K V) (ops : List (MapOp K V)) :
    inserts (op :: ops) = inserts [op] + inserts ops := by
  rw [inserts, List.countP_cons, add_comm]
  simp [inserts, List.countP_cons]

/-- One call after the other. -/
theorem calls_fills (hR : R.asserts = true) (hP : Filled R N c mem k) (ops : List (MapOp K V)) :
    Fills R (Fit R N) (calls N ops) mem k fun _ mem' k' => Filled R N (c + (inserts ops : ℕ)) mem' k' := by
  induction ops generalizing c mem k with
  | nil => exact fills_ret (by simpa [inserts] using hP)
  | cons op ops ih =>
    refine fills_bind ((call_fills hR hP op).mono fun a mem' k' h => ?_)
    refine fills_bind ((ih h).mono fun as mem'' k'' h' => fills_ret ?_)
    rwa [inserts_cons, Nat.cast_add, ← add_assoc]

/-- In every step of every session no node is written beyond its arrays, and after `m` inserts, whatever the other
calls, the tree has `2 * m + 1` pages at most and a height of at most the logarithm of `m + 1`. -/
theorem session_pages (R : PageRules) (N : NodeSizes) (ops : List (MapOp K V)) :
    Always (PageWorld.handler R.ideal).steps (Writes (Fit R.ideal N)) (session N ops) (.empty {}) (fun _ _ => True) ∧
    Runs (PageWorld.handler R.ideal) (session N ops) (.empty {}) fun _ w => w.created ≤ 2 * inserts ops + 1 ∧
      ∃ H, Subtree N w.mem H w.header.rootID none none ∧ 2 ^ H ≤ inserts ops + 1 := by
  have hfills : Fills R.ideal (Fit R.ideal N) (session N ops) (fun _ => none) 0
      fun _ mem k => Filled R.ideal N (1 + inserts ops : ℕ) mem k :=
    fills_bind (create_fills.mono fun _ mem k h => by exact_mod_cast calls_fills rfl h ops)
  have halways := hfills (.empty {}) rfl rfl
  refine ⟨halways.mono fun _ _ _ => trivial, ?_⟩
  obtain ⟨n, out, w, he, -, hw⟩ := session_spec (R := R.ideal) (N := N) (by simp [PageRules.ideal]) ops
  obtain ⟨hpages, H, hsub, hheight⟩ := hw.pages_le (halways.of_returns ⟨n, he⟩)
  exact ⟨n, out, w, he, by omega, H, hsub, by omega⟩

end Calls

end BEpsilon.BTree
