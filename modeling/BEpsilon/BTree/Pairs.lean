import BEpsilon.BTree.Insert

/-!
# BEpsilon.BTree.Pairs — the pairs that can be reached from a page

`pairs mem root` are the key/value pairs in the leaves below `root`, found by following the children of
the pages as they are in memory, whether or not these form a B-tree.  Of a B-tree they are the map that
it holds, and after the right half of its root has been moved away they are the pairs up to the middle key.
-/

namespace BEpsilon.BTree

open Slots Fanout

variable {K V : Type}

/-- The pages that are reached from `root` by following children. -/
inductive Below (mem : PageId → Option (BNode K V)) (root : PageId) : PageId → Prop
  | refl : Below mem root root
  | child {page : PageId} {n : BInnerNode K} {i : ℕ} (hb : Below mem root page)
      (hm : mem page = some (.inner n)) (hi : i ≤ n.size) : Below mem root (n.children i)

/-- The key/value pairs in the leaves below a page. -/
def pairs (mem : PageId → Option (BNode K V)) (root : PageId) : Set (K × V) :=
  {p | ∃ page n i, Below mem root page ∧ mem page = some (.leaf n) ∧ i < n.size ∧ n.keys i = p.1 ∧
    n.values i = p.2}

section Pages

variable {mem mem' : PageId → Option (BNode K V)} {root page : PageId} {p : K × V}

/-- Below a leaf there is only the leaf. -/
theorem below_leaf {n : BLeafNode K V} (hm : mem root = some (.leaf n)) : Below mem root page ↔ page = root := by
  refine ⟨?_, ?_⟩
  · intro hb
    induction hb with
    | refl => rfl
    | child _ hm' _ ih =>
      subst ih
      cases hm.symm.trans hm'
  · rintro rfl
    exact .refl

/-- Below an inner node there are its children and what is below them. -/
theorem below_inner {n : BInnerNode K} (hm : mem root = some (.inner n)) :
    Below mem root page ↔ page = root ∨ ∃ i ≤ n.size, Below mem (n.children i) page := by
  refine ⟨?_, ?_⟩
  · intro hb
    induction hb with
    | refl => exact .inl rfl
    | @child page n' i _ hm' hi ih =>
      rcases ih with rfl | ⟨j, hj, hb⟩
      · obtain rfl := by simpa using hm.symm.trans hm'
        exact .inr ⟨i, hi, .refl⟩
      · exact .inr ⟨j, hj, .child hb hm' hi⟩
  · rintro (rfl | ⟨i, hi, hb⟩)
    · exact .refl
    · induction hb with
      | refl => exact .child .refl hm hi
      | child _ hm' hi' ih => exact .child ih hm' hi'

theorem mem_pairs_leaf [LinearOrder K] {n : BLeafNode K V} (hm : mem root = some (.leaf n))
    (hs : Sorted n.keys n.size) : p ∈ pairs mem root ↔ n.get p.1 = some p.2 := by
  rw [BLeafNode.get, lookup_eq_some_iff hs]
  refine ⟨?_, ?_⟩
  · rintro ⟨page, n', i, hb, hm', hi, hk, hv⟩
    obtain rfl := (below_leaf hm).mp hb
    obtain rfl := by simpa using hm.symm.trans hm'
    exact ⟨i, hi, hk, hv⟩
  · rintro ⟨i, hi, hk, hv⟩
    exact ⟨root, n, i, .refl, hm, hi, hk, hv⟩

theorem mem_pairs_inner {n : BInnerNode K} (hm : mem root = some (.inner n)) :
    p ∈ pairs mem root ↔ ∃ i ≤ n.size, p ∈ pairs mem (n.children i) := by
  refine ⟨?_, ?_⟩
  · rintro ⟨page, t, j, hb, ht, hj⟩
    rcases (below_inner hm).mp hb with rfl | ⟨i, hi, hb⟩
    · cases hm.symm.trans ht
    · exact ⟨i, hi, page, t, j, hb, ht, hj⟩
  · rintro ⟨i, hi, page, t, j, hb, ht, hj⟩
    exact ⟨page, t, j, (below_inner hm).mpr (.inr ⟨i, hi, hb⟩), ht, hj⟩

end Pages

namespace TreeInv

variable [LinearOrder K] {ids : ℕ → PageId} {N : NodeSizes} {mem mem' : PageId → Option (BNode K V)}
  {header : Header} {created H : ℕ} {pg : ℕ → K → PageId} {L : K → Option V} {p : K × V}

/-- Below the page of height `h` on the path of `k` are the pairs of the map whose paths go there. -/
theorem mem_pairs (hT : TreeInv ids N mem header created H pg L) {h : ℕ} (hh : h ≤ H) (k : K)
    (hm : ∀ g ≤ h, ∀ x, mem' (pg g x) = mem (pg g x)) :
    p ∈ pairs mem' (pg h k) ↔ L p.1 = some p.2 ∧ pg h p.1 = pg h k := by
  induction h generalizing k with
  | zero =>
    obtain ⟨t, ht, hok, hkeys⟩ := hT.leaf_page k
    rw [mem_pairs_leaf ((hm 0 le_rfl k).trans ht) hok.sorted]
    have hdata : pg 0 p.1 = pg 0 k → t.get p.1 = L p.1 := by
      intro e
      exact hT.data p.1 t (e ▸ ht)
    refine ⟨?_, ?_⟩
    · intro hget
      obtain ⟨i, hi, hki, -⟩ := (lookup_eq_some_iff hok.sorted).mp hget
      have e := hkeys p.1 ⟨i, hi, hki⟩
      exact ⟨(hdata e).symm.trans hget, e⟩
    · rintro ⟨hL, e⟩
      exact (hdata e).trans hL
  | succ h ih =>
    obtain ⟨n, hn, hok, hroute⟩ := hT.inner_page (h := h) (by omega) k
    rw [mem_pairs_inner ((hm (h + 1) le_rfl k).trans hn)]
    have hchild := fun i (hi : i ≤ n.size) => child_keys hT.routed (by omega) (views_inner hn) hok.distinct hi
    have hbelow : ∀ i ≤ n.size, p ∈ pairs mem' (n.children i) ↔ L p.1 = some p.2 ∧ pg h p.1 = n.children i := by
      intro i hi
      obtain ⟨⟨x, hx, -⟩, -⟩ := hchild i hi
      rw [← hx]
      exact ih (by omega) x fun g hg => hm g (by omega)
    refine ⟨?_, ?_⟩
    · rintro ⟨i, hi, hp⟩
      obtain ⟨hL, e⟩ := (hbelow i hi).mp hp
      exact ⟨hL, ((hchild i hi).2 p.1 e).1⟩
    · rintro ⟨hL, e⟩
      obtain ⟨hr, -, -⟩ := inner_facts hT.routed (by omega) (views_inner hn)
      exact ⟨_, lowerBound_le _ _ _, (hbelow _ (lowerBound_le _ _ _)).mpr ⟨hL, (hr p.1 e).symm⟩⟩

/-- Below the root are the pairs of the map. -/
theorem mem_pairs_root (hT : TreeInv ids N mem header created H pg L) :
    p ∈ pairs mem header.rootID ↔ L p.1 = some p.2 := by
  rw [← hT.routed.top p.1, hT.mem_pairs le_rfl p.1 fun _ _ _ => rfl]
  exact ⟨fun h => h.1, fun h => ⟨h, rfl⟩⟩

variable [Inhabited K] [Inhabited V]

/-- The left half of a root leaf has the pairs up to the middle key. -/
theorem mem_pairs_leftLeaf (hT : TreeInv ids N mem header created H pg L) {t : BLeafNode K V}
    (ht : mem header.rootID = some (.leaf t)) (h2 : 2 ≤ t.size)
    (hm : mem' header.rootID = some (.leaf t.leftHalf)) :
    p ∈ pairs mem' header.rootID ↔ L p.1 = some p.2 ∧ p.1 ≤ t.middleKey := by
  have hok : LeafOk N t := hT.nodes _ _ ht
  have hhalf := hok.halves h2
  have hall : t.get p.1 = some p.2 ↔ L p.1 = some p.2 := by
    rw [← mem_pairs_leaf ht hok.sorted, hT.mem_pairs_root]
  rw [mem_pairs_leaf hm hhalf.left_ok.sorted, ← hall]
  refine ⟨?_, ?_⟩
  · intro hget
    obtain ⟨i, hi, hk, -⟩ := (lookup_eq_some_iff hhalf.left_ok.sorted).mp hget
    have hle := (hhalf.left_keys p.1 ⟨i, hi, hk⟩).2
    exact ⟨(hhalf.left_get p.1 hle).symm.trans hget, hle⟩
  · rintro ⟨hget, hle⟩
    exact (hhalf.left_get p.1 hle).trans hget

omit [Inhabited K] [Inhabited V] in
/-- The left half of an inner root has the pairs up to the middle pivot. -/
theorem mem_pairs_leftInner (hT : TreeInv ids N mem header created H pg L) {n : BInnerNode K}
    (hn : mem header.rootID = some (.inner n)) (hm : mem' header.rootID = some (.inner n.leftHalf))
    (hkeep : ∀ id, id ≠ header.rootID → mem id ≠ none → mem' id = mem id) :
    p ∈ pairs mem' header.rootID ↔ L p.1 = some p.2 ∧ p.1 ≤ n.pivots ((n.size - 1) / 2) := by
  obtain ⟨h, rfl⟩ : ∃ h, H = h + 1 := by
    refine Nat.exists_eq_succ_of_ne_zero ?_
    rintro rfl
    obtain ⟨t, ht, -⟩ := hT.leaf_page p.1
    rw [hT.routed.top, hn] at ht
    cases ht
  have hok : InnerNodeOk N n := hT.nodes _ _ hn
  have hpos := hok.size_pos
  rw [← hT.routed.top p.1] at hn
  have hchild := fun i (hi : i ≤ n.size) => child_keys hT.routed (by omega) (views_inner hn) hok.distinct hi
  have hbelow : ∀ i ≤ n.size, p ∈ pairs mem' (n.children i) ↔ L p.1 = some p.2 ∧ pg h p.1 = n.children i := by
    intro i hi
    obtain ⟨⟨x, hx, -⟩, -⟩ := hchild i hi
    rw [← hx]
    refine hT.mem_pairs (by omega) x fun g hg y => hkeep _ ?_ (hT.mem_page (by omega) y)
    rw [← hT.routed.top y]
    exact hT.routed.page_ne (by omega) (by omega) (by omega)
  -- the index of the child on the path
  have hindex : lowerBound n.pivots n.size p.1 ≤ (n.size - 1) / 2 ↔ p.1 ≤ n.pivots ((n.size - 1) / 2) := by
    refine ⟨?_, ?_⟩
    · intro hle
      by_contra hgt
      exact absurd (lt_lowerBound hok.sorted (by omega) (not_le.mp hgt)) (by omega)
    · intro hle
      by_contra hgt
      exact absurd (lt_of_lt_lowerBound (n := n.size) (not_le.mp hgt)) (not_lt.mpr hle)
  rw [mem_pairs_inner hm, ← hindex]
  refine ⟨?_, ?_⟩
  · rintro ⟨i, hi, hp⟩
    have hi : i ≤ (n.size - 1) / 2 := hi
    obtain ⟨hL, e⟩ := (hbelow i (by omega)).mp hp
    exact ⟨hL, ((hchild i (by omega)).2 p.1 e).2.trans_le hi⟩
  · rintro ⟨hL, hle⟩
    obtain ⟨hr, -, -⟩ := inner_facts hT.routed (by omega) (views_inner hn)
    exact ⟨_, hle, (hbelow _ (lowerBound_le _ _ _)).mpr ⟨hL, (hr p.1 rfl).symm⟩⟩

end TreeInv

end BEpsilon.BTree
