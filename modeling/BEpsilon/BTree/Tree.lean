import BEpsilon.Lib.Fanout
import BEpsilon.BTree.Program

/-!
# BEpsilon.BTree.Tree — the invariant of the B-tree

`TreeInv` says that the pages in memory form a search tree of some height `H` below the root page
(`Routed`), that every node is sorted and within its capacity, that every created page is in the
tree, and that the leaf on the path of a key holds what the map `L` says about it.  The step lemmas
say how the invariant moves when a leaf is rewritten, when a child is split below its parent and when
the tree gets a new root.
-/

namespace BEpsilon.BTree

open Slots

variable {K V : Type} [LinearOrder K]

/-- What a node shows to a search. -/
def BNode.view : BNode K V → View K PageId
  | .leaf n => .leaf (Fanout.pivotSet n.keys n.size)
  | .inner n => Fanout.view n.pivots n.children n.size

/-- A leaf is sorted and within its capacity. -/
structure LeafOk (N : NodeSizes) (n : BLeafNode K V) : Prop where
  sorted : Sorted n.keys n.size
  size_le : n.size ≤ N.LEAF_N

/-- An inner node is sorted, has a pivot, distinct children and is within its capacity. -/
structure InnerNodeOk (N : NodeSizes) (n : BInnerNode K) : Prop where
  sorted : Sorted n.pivots n.size
  distinct : Fanout.Distinct n.children n.size
  size_pos : 1 ≤ n.size
  size_le : n.size ≤ N.INNER_N

def NodeOk (N : NodeSizes) : BNode K V → Prop
  | .leaf n => LeafOk N n
  | .inner n => InnerNodeOk N n

/-- The views of the pages in memory. -/
def views (mem : PageId → Option (BNode K V)) : PageId → Option (View K PageId) :=
  fun id => (mem id).map BNode.view

theorem views_leaf {mem : PageId → Option (BNode K V)} {id : PageId} {n : BLeafNode K V}
    (hm : mem id = some (.leaf n)) : views mem id = some (.leaf (Fanout.pivotSet n.keys n.size)) := by
  rw [views, hm]
  rfl

theorem views_inner {mem : PageId → Option (BNode K V)} {id : PageId} {n : BInnerNode K}
    (hm : mem id = some (.inner n)) : views mem id = some (Fanout.view n.pivots n.children n.size) := by
  rw [views, hm]
  rfl

/-- What a leaf says about a key. -/
def BLeafNode.get (n : BLeafNode K V) (k : K) : Option V := lookup n.keys n.values n.size k

/-- The pages in memory are a B-tree of height `H` that holds the map `L`. -/
structure TreeInv (ids : ℕ → PageId) (N : NodeSizes) (mem : PageId → Option (BNode K V))
    (header : Header) (created : ℕ) (H : ℕ) (pg : ℕ → K → PageId) (L : K → Option V) : Prop where
  routed : Routed (views mem) header.rootID H pg
  nodes : ∀ id d, mem id = some d → NodeOk N d
  flag : header.leafRoot = true ↔ H = 0
  data : ∀ k n, mem (pg 0 k) = some (.leaf n) → n.get k = L k
  known : ∀ id, mem id ≠ none → ∃ i < created, ids i = id
  all : ∀ i < created, ∃ h ≤ H, ∃ k, pg h k = ids i

namespace TreeInv

variable {ids : ℕ → PageId} {N : NodeSizes} {mem mem' : PageId → Option (BNode K V)}
  {header : Header} {created H : ℕ} {pg : ℕ → K → PageId} {L L' : K → Option V}

theorem leaf_page (hT : TreeInv ids N mem header created H pg L) (k : K) :
    ∃ n, mem (pg 0 k) = some (.leaf n) ∧ LeafOk N n ∧
      ∀ x ∈ Fanout.pivotSet n.keys n.size, pg 0 x = pg 0 k := by
  obtain ⟨keys, hv, hk⟩ := hT.routed.leaf k
  obtain ⟨d, hd, hdv⟩ := Option.map_eq_some_iff.mp hv
  cases d with
  | leaf n =>
    simp only [BNode.view, View.leaf.injEq] at hdv
    subst hdv
    exact ⟨n, hd, hT.nodes _ _ hd, hk⟩
  | inner n => simp [BNode.view, Fanout.view] at hdv

theorem inner_page (hT : TreeInv ids N mem header created H pg L) {h : ℕ} (hh : h < H) (k : K) :
    ∃ n, mem (pg (h + 1) k) = some (.inner n) ∧ InnerNodeOk N n ∧
      n.children (lowerBound n.pivots n.size k) = pg h k := by
  obtain ⟨f, P, C, hv, hok⟩ := hT.routed.inner h hh k
  obtain ⟨d, hd, hdv⟩ := Option.map_eq_some_iff.mp hv
  cases d with
  | leaf n => simp [BNode.view] at hdv
  | inner n =>
    simp only [BNode.view, Fanout.view, View.inner.injEq] at hdv
    refine ⟨n, hd, hT.nodes _ _ hd, ?_⟩
    rw [← hok.route_eq, ← hdv.1, Fanout.route]

/-- Every page on a path is in memory. -/
theorem mem_page (hT : TreeInv ids N mem header created H pg L) {h : ℕ} (hh : h ≤ H) (k : K) :
    mem (pg h k) ≠ none := by
  cases h with
  | zero =>
    obtain ⟨n, hn, -⟩ := hT.leaf_page k
    simp [hn]
  | succ h =>
    obtain ⟨n, hn, -⟩ := hT.inner_page (h := h) (by omega) k
    simp [hn]

/-- An id that was not handed out is on no path. -/
theorem fresh_page (hT : TreeInv ids N mem header created H pg L)
    (hinj : ∀ i j, ids i = ids j → i = j) {c : ℕ} (hc : created ≤ c) {h : ℕ} (hh : h ≤ H) (k : K) :
    pg h k ≠ ids c := by
  intro e
  obtain ⟨i, hi, e'⟩ := hT.known _ (hT.mem_page hh k)
  have := hinj i c (e'.trans e)
  omega

/-- An id that was not handed out is not in memory. -/
theorem fresh_mem (hT : TreeInv ids N mem header created H pg L)
    (hinj : ∀ i j, ids i = ids j → i = j) {c : ℕ} (hc : created ≤ c) : mem (ids c) = none := by
  by_contra hne
  obtain ⟨i, hi, e⟩ := hT.known _ hne
  have := hinj i c e
  omega

/-- Rewriting the leaf on the path of `key`. -/
theorem set_leaf (hT : TreeInv ids N mem header created H pg L) {key : K} {n' : BLeafNode K V}
    (hq : mem' (pg 0 key) = some (.leaf n')) (hv : ∀ id, id ≠ pg 0 key → mem' id = mem id)
    (hok : LeafOk N n') (hk : ∀ x ∈ Fanout.pivotSet n'.keys n'.size, pg 0 x = pg 0 key)
    (hget : ∀ k, pg 0 k = pg 0 key → n'.get k = L' k)
    (hL : ∀ k, pg 0 k ≠ pg 0 key → L' k = L k) : TreeInv ids N mem' header created H pg L' where
  routed := hT.routed.set_leaf (k := key) (by rw [views, hq]; rfl) hk
    fun id hid => by rw [views, hv id hid, views]
  nodes id d hd := by
    by_cases e : id = pg 0 key
    · subst e
      obtain rfl := by simpa using hq.symm.trans hd
      exact hok
    · exact hT.nodes id d (by rw [← hv id e]; exact hd)
  flag := hT.flag
  data k n hn := by
    by_cases e : pg 0 k = pg 0 key
    · rw [e] at hn
      obtain rfl := by simpa using hq.symm.trans hn
      exact hget k e
    · rw [hL k e]
      exact hT.data k n (by rw [← hv _ e]; exact hn)
  known id hid := by
    by_cases e : id = pg 0 key
    · subst e
      exact hT.known _ (hT.mem_page (by omega) key)
    · exact hT.known id (by rw [← hv id e]; exact hid)
  all := hT.all

section Split

variable {h : ℕ} {k₀ mid : K} {np np' : BInnerNode K}

/-- What the two split lemmas share: the parent learns the pivot, everything else follows from the
views and the contents of the halves. -/
theorem of_split (hT : TreeInv ids N mem header created H pg L) (hh : h < H)
    (hS : Routed.SplitStep (views mem) (views mem') H pg h k₀ mid (ids created)
      (Fanout.route np'.pivots np'.children np'.size) (Fanout.pivotSet np'.pivots np'.size)
      (Fanout.childSet np'.children np'.size))
    (hp : mem' (pg (h + 1) k₀) = some (.inner np')) (hpok : InnerNodeOk N np')
    {dq dr : BNode K V} (hq : mem' (pg h k₀) = some dq) (hqok : NodeOk N dq)
    (hr : mem' (ids created) = some dr) (hrok : NodeOk N dr)
    (hv : ∀ id, id ≠ pg (h + 1) k₀ → id ≠ pg h k₀ → id ≠ ids created → mem' id = mem id)
    (hdata : ∀ k n, mem' (Routed.splitPg pg h (pg h k₀) (ids created) mid 0 k) = some (.leaf n) →
      n.get k = L k) :
    TreeInv ids N mem' header (created + 1) H
      (Routed.splitPg pg h (pg h k₀) (ids created) mid) L where
  routed := hT.routed.split hS
  nodes id d hd := by
    by_cases e₁ : id = pg (h + 1) k₀
    · subst e₁
      obtain rfl := by simpa using hp.symm.trans hd
      exact hpok
    by_cases e₂ : id = pg h k₀
    · subst e₂
      obtain rfl := by simpa using hq.symm.trans hd
      exact hqok
    by_cases e₃ : id = ids created
    · subst e₃
      obtain rfl := by simpa using hr.symm.trans hd
      exact hrok
    exact hT.nodes id d (by rw [← hv id e₁ e₂ e₃]; exact hd)
  flag := hT.flag
  data := hdata
  known id hid := by
    by_cases e₁ : id = pg (h + 1) k₀
    · obtain ⟨i, hi, e⟩ := hT.known _ (e₁ ▸ hT.mem_page (by omega) k₀)
      exact ⟨i, by omega, e⟩
    by_cases e₂ : id = pg h k₀
    · obtain ⟨i, hi, e⟩ := hT.known _ (e₂ ▸ hT.mem_page (by omega) k₀)
      exact ⟨i, by omega, e⟩
    by_cases e₃ : id = ids created
    · exact ⟨created, by omega, e₃.symm⟩
    obtain ⟨i, hi, e⟩ := hT.known id (by rw [← hv id e₁ e₂ e₃]; exact hid)
    exact ⟨i, by omega, e⟩
  all i hi := by
    rcases Nat.lt_or_ge i created with hlt | hge
    · obtain ⟨g, hg, k, e⟩ := hT.all i hlt
      by_cases hc : g = h ∧ pg h k = pg h k₀ ∧ mid < k
      · refine ⟨g, hg, mid, ?_⟩
        rw [Routed.splitPg_left le_rfl, ← e, hc.1, hS.mid_mem, hc.2.1]
      · exact ⟨g, hg, k, by simp [Routed.splitPg, hc, e]⟩
    · obtain rfl : i = created := by omega
      obtain ⟨x, hx, hlt⟩ := hS.above
      exact ⟨h, hh.le, x, Routed.splitPg_right hx hlt⟩

/-- A leaf gives its pairs right of `mid` to a fresh page. -/
theorem split_leaf (hT : TreeInv ids N mem header created H pg L)
    (hinj : ∀ i j, ids i = ids j → i = j) (hH : 0 < H)
    (hnp : mem (pg 1 k₀) = some (.inner np)) (hfull : np.size < N.INNER_N)
    {n nl nr : BLeafNode K V} (hn : mem (pg 0 k₀) = some (.leaf n))
    (hmid : pg 0 mid = pg 0 k₀) (hup : ∃ x, pg 0 x = pg 0 k₀ ∧ mid < x)
    (hp : mem' (pg 1 k₀) =
      some (.inner (np.insertPivot (lowerBound np.pivots np.size k₀) mid (ids created))))
    (hq : mem' (pg 0 k₀) = some (.leaf nl))
    (hr : mem' (ids created) = some (.leaf nr))
    (hv : ∀ id, id ≠ pg 1 k₀ → id ≠ pg 0 k₀ → id ≠ ids created → mem' id = mem id)
    (hlok : LeafOk N nl) (hrok : LeafOk N nr)
    (hl : ∀ x ∈ Fanout.pivotSet nl.keys nl.size, x ∈ Fanout.pivotSet n.keys n.size ∧ x ≤ mid)
    (hr' : ∀ x ∈ Fanout.pivotSet nr.keys nr.size, x ∈ Fanout.pivotSet n.keys n.size ∧ mid < x)
    (hgl : ∀ k ≤ mid, nl.get k = n.get k) (hgr : ∀ k, mid < k → nr.get k = n.get k) :
    TreeInv ids N mem' header (created + 1) H
      (Routed.splitPg pg 0 (pg 0 k₀) (ids created) mid) L := by
  have hfresh : ∀ h' ≤ H, ∀ k, pg h' k ≠ ids created := fun h' hh k =>
    hT.fresh_page hinj le_rfl hh k
  have hpok : InnerNodeOk N np := hT.nodes _ _ hnp
  obtain ⟨hsort, hdist, hroute, hpiv, hch⟩ := Fanout.parent_step hT.routed hH (views_inner hnp)
    hpok.sorted hpok.distinct rfl hmid hup (hfresh 0 (by omega))
  have hkeys : ∀ x ∈ Fanout.pivotSet n.keys n.size, pg 0 x = pg 0 k₀ := by
    obtain ⟨n₀, hn₀, -, hk⟩ := hT.leaf_page k₀
    obtain rfl := by simpa using hn₀.symm.trans hn
    exact hk
  refine hT.of_split hH ⟨hH, hfresh, hmid, hup, views_inner hp, hroute, hpiv, hch,
    fun _ => ⟨_, _, views_leaf hq, views_leaf hr, fun x hx => ?_, fun x hx => ?_⟩,
    fun g hg => by omega, fun g hg => by omega, fun id h₁ h₂ h₃ => ?_⟩ hp
    ⟨hsort, hdist, Nat.le_add_left 1 _, hfull⟩ hq hlok hr hrok hv fun k m hm => ?_
  · exact ⟨hkeys x (hl x hx).1, (hl x hx).2⟩
  · exact ⟨hkeys x (hr' x hx).1, (hr' x hx).2⟩
  · rw [views, hv id h₁ h₂ h₃, views]
  · by_cases hk : pg 0 k = pg 0 k₀
    · have hold := hT.data k n (by rw [hk]; exact hn)
      rcases le_or_gt k mid with hkm | hkm
      · rw [Routed.splitPg_left hkm, hk, hq] at hm
        obtain rfl := by simpa using hm
        rw [hgl k hkm, hold]
      · rw [Routed.splitPg_right hk hkm, hr] at hm
        obtain rfl := by simpa using hm
        rw [hgr k hkm, hold]
    · rw [Routed.splitPg_of_page_ne hk, hv _ (hT.routed.page_ne (by omega) hH (by omega)) hk
        (hfresh 0 (by omega) k)] at hm
      exact hT.data k m hm

/-- An inner node gives its pivots and children right of pivot `s` to a fresh page. -/
theorem split_inner (hT : TreeInv ids N mem header created H pg L)
    (hinj : ∀ i j, ids i = ids j → i = j) {g : ℕ} (hg : g + 1 < H)
    (hnp : mem (pg (g + 1 + 1) k₀) = some (.inner np)) (hfull : np.size < N.INNER_N)
    {n : BInnerNode K} (hn : mem (pg (g + 1) k₀) = some (.inner n)) {s : ℕ} (hs₁ : 1 ≤ s)
    (hs₂ : s + 1 < n.size) {pd : Slots K} {cd : Slots PageId}
    (hp : mem' (pg (g + 1 + 1) k₀) = some (.inner
      (np.insertPivot (lowerBound np.pivots np.size k₀) (n.pivots s) (ids created))))
    (hq : mem' (pg (g + 1) k₀) = some (.inner { n with size := s }))
    (hr : mem' (ids created) = some (.inner ⟨Fanout.dropPiv n.pivots n.size s pd,
      Fanout.dropCh n.children n.size s cd, n.size - (s + 1)⟩))
    (hv : ∀ id, id ≠ pg (g + 1 + 1) k₀ → id ≠ pg (g + 1) k₀ → id ≠ ids created →
      mem' id = mem id) :
    TreeInv ids N mem' header (created + 1) H
      (Routed.splitPg pg (g + 1) (pg (g + 1) k₀) (ids created) (n.pivots s)) L := by
  have hfresh : ∀ h' ≤ H, ∀ k, pg h' k ≠ ids created := fun h' hh k =>
    hT.fresh_page hinj le_rfl hh k
  have hok : InnerNodeOk N n := hT.nodes _ _ hn
  have hpok : InnerNodeOk N np := hT.nodes _ _ hnp
  obtain ⟨-, hpivn, -⟩ := Fanout.inner_facts hT.routed (by omega) (views_inner hn)
  have hmid : pg (g + 1) (n.pivots s) = pg (g + 1) k₀ := hpivn _ ⟨s, by omega, rfl⟩
  have hup : ∃ x, pg (g + 1) x = pg (g + 1) k₀ ∧ n.pivots s < x :=
    ⟨n.pivots (s + 1), hpivn _ ⟨s + 1, hs₂, rfl⟩, hok.sorted s (s + 1) (by omega) hs₂⟩
  obtain ⟨hsort, hdist, hroute, hpiv, hch⟩ := Fanout.parent_step hT.routed hg (views_inner hnp)
    hpok.sorted hpok.distinct rfl hmid hup (hfresh _ hg.le)
  obtain ⟨hfl, hfr, hPl, hPr, hCl, hCr, hside⟩ := Fanout.halves_step hT.routed (by omega)
    (views_inner hn) hok.sorted hok.distinct (s := s) (by omega)
  refine hT.of_split hg ⟨hg, hfresh, hmid, hup, views_inner hp, hroute, hpiv, hch,
    fun h0 => by omega, fun g' hg' => ?_, fun g' hg' => ?_, fun id h₁ h₂ h₃ => ?_⟩ hp
    ⟨hsort, hdist, Nat.le_add_left 1 _, hfull⟩ hq
    ⟨hok.sorted.mono (show s ≤ n.size by omega),
      Fanout.distinct_take hok.distinct (show s ≤ n.size by omega), hs₁,
      by have := hok.size_le; simp only; omega⟩ hr
    ⟨Fanout.sorted_drop hok.sorted, Fanout.distinct_drop hok.distinct (by omega), by simp only; omega,
      by have := hok.size_le; simp only; omega⟩ hv fun k m hm => ?_
  · obtain rfl : g' = g := by omega
    exact ⟨_, _, _, _, _, _, views_inner hq, views_inner hr, hfl, hfr, hPl, hPr, hCl, hCr⟩
  · obtain rfl : g' = g := by omega
    exact hside
  · rw [views, hv id h₁ h₂ h₃, views]
  · rw [Routed.splitPg_of_ne (by omega), hv _ (hT.routed.page_ne (by omega) (by omega) (by omega))
      (hT.routed.page_ne (by omega) (by omega) (by omega)) (hfresh 0 (by omega) k)] at hm
    exact hT.data k m hm

end Split

section Grow

variable {mid : K} {a b : PageId}

/-- The page below the new root that a key goes to. -/
def rootSide (mid : K) (a b : PageId) (k : K) : PageId := if k ≤ mid then a else b

theorem rootSide_left {k : K} (hk : k ≤ mid) : rootSide mid a b k = a := if_pos hk

theorem rootSide_right {k : K} (hk : mid < k) : rootSide mid a b k = b := if_neg (not_le.mpr hk)

theorem rootSide_cases (mid : K) (a b : PageId) (k : K) :
    (k ≤ mid ∧ rootSide mid a b k = a) ∨ (mid < k ∧ rootSide mid a b k = b) := by
  rcases le_or_gt k mid with h | h
  · exact .inl ⟨h, rootSide_left h⟩
  · exact .inr ⟨h, rootSide_right h⟩

theorem rootSide_inj (hab : a ≠ b) {x k : K} :
    rootSide mid a b x = rootSide mid a b k ↔ (x ≤ mid ↔ k ≤ mid) := by
  rcases rootSide_cases mid a b x with ⟨hx, ex⟩ | ⟨hx, ex⟩ <;>
    rcases rootSide_cases mid a b k with ⟨hk, ek⟩ | ⟨hk, ek⟩ <;> rw [ex, ek]
  · simp [hx, hk]
  · simp [hx, not_le.mpr hk, hab]
  · simp [hk, not_le.mpr hx, hab.symm]
  · simp [not_le.mpr hx, not_le.mpr hk]

variable [Inhabited K]

theorem lowerBound_newRoot (mid : K) (a b : PageId) (k : K) :
    lowerBound (newRootNode mid a b).pivots (newRootNode mid a b).size k =
      if k ≤ mid then 0 else 1 := by
  refine lowerBound_eq_iff.mpr ?_
  split
  next h => exact ⟨by simp, by simp, fun _ => by simpa [newRootNode] using h⟩
  next h =>
    refine ⟨by simp [newRootNode], fun j hj => ?_, fun h1 => by simp [newRootNode] at h1⟩
    obtain rfl : j = 0 := by omega
    simpa [newRootNode] using h

theorem route_newRoot (mid : K) (a b : PageId) :
    Fanout.route (newRootNode mid a b).pivots (newRootNode mid a b).children
      (newRootNode mid a b).size = rootSide mid a b := by
  funext k
  rw [Fanout.route, lowerBound_newRoot, rootSide]
  split <;> simp [newRootNode]

theorem newRoot_ok (N : NodeSizes) (hab : a ≠ b) : InnerNodeOk N (newRootNode mid a b) := by
  have := N.inner_ge
  refine ⟨fun i j hij hj => ?_, fun i j hi hj e => ?_, le_rfl, by simp only [newRootNode]; omega⟩
  · simp only [newRootNode] at hj
    omega
  · simp only [newRootNode] at hi hj e
    rcases (by omega : i = 0 ∨ i = 1) with rfl | rfl <;>
      rcases (by omega : j = 0 ∨ j = 1) with rfl | rfl <;> simp_all [eq_comm]

theorem mem_childSet_newRoot {x : K} (hx : mid < x) (c : PageId) :
    c ∈ Fanout.childSet (newRootNode mid a b).children (newRootNode mid a b).size ↔
      ∃ k, rootSide mid a b k = c := by
  constructor
  · rintro ⟨i, hi, rfl⟩
    simp only [newRootNode] at hi ⊢
    rcases (by omega : i = 0 ∨ i = 1) with rfl | rfl
    · exact ⟨mid, by simp [rootSide_left le_rfl]⟩
    · exact ⟨x, by simp [rootSide_right hx]⟩
  · rintro ⟨k, rfl⟩
    rcases rootSide_cases mid a b k with ⟨-, e⟩ | ⟨-, e⟩
    · exact ⟨0, by simp [newRootNode], by simp [newRootNode, e]⟩
    · exact ⟨1, by simp [newRootNode], by simp [newRootNode, e]⟩

/-- The tree after the root page has handed its halves to the pages `a` and `b`. -/
theorem of_grow (hT : TreeInv ids N mem header created H pg L) (hab : a ≠ b)
    (ha : a = ids (created + 1)) (hb : b = ids created) {x : K} (hx : mid < x)
    (hR : Routed (views mem') header.rootID (H + 1) (Routed.growPg pg H header.rootID
      (rootSide mid a b)))
    (hroot : mem' header.rootID = some (.inner (newRootNode mid a b)))
    {da db : BNode K V} (hda : mem' a = some da) (haok : NodeOk N da)
    (hdb : mem' b = some db) (hbok : NodeOk N db)
    (hv : ∀ id, id ≠ header.rootID → id ≠ a → id ≠ b → mem' id = mem id)
    (hdata : ∀ k n, mem' (Routed.growPg pg H header.rootID (rootSide mid a b) 0 k) = some (.leaf n) →
      n.get k = L k) :
    TreeInv ids N mem' { header with leafRoot := false } (created + 2) (H + 1)
      (Routed.growPg pg H header.rootID (rootSide mid a b)) L where
  routed := hR
  nodes id d hd := by
    by_cases e₁ : id = header.rootID
    · subst e₁
      obtain rfl := by simpa using hroot.symm.trans hd
      exact newRoot_ok N hab
    by_cases e₂ : id = a
    · subst e₂
      obtain rfl := by simpa using hda.symm.trans hd
      exact haok
    by_cases e₃ : id = b
    · subst e₃
      obtain rfl := by simpa using hdb.symm.trans hd
      exact hbok
    exact hT.nodes id d (by rw [← hv id e₁ e₂ e₃]; exact hd)
  flag := by simp
  data := hdata
  known id hid := by
    by_cases e₁ : id = header.rootID
    · obtain ⟨i, hi, e⟩ := hT.known _ (hT.mem_page le_rfl mid)
      exact ⟨i, by omega, by rw [e, hT.routed.top, e₁]⟩
    by_cases e₂ : id = a
    · exact ⟨created + 1, by omega, by rw [e₂, ha]⟩
    by_cases e₃ : id = b
    · exact ⟨created, by omega, by rw [e₃, hb]⟩
    obtain ⟨i, hi, e⟩ := hT.known id (by rw [← hv id e₁ e₂ e₃]; exact hid)
    exact ⟨i, by omega, e⟩
  all i hi := by
    rcases Nat.lt_trichotomy i created with hlt | rfl | hgt
    · obtain ⟨h, hh, k, e⟩ := hT.all i hlt
      rcases hh.lt_or_eq with hlt' | rfl
      · exact ⟨h, by omega, k, by rw [Routed.growPg_old hlt', e]⟩
      · exact ⟨h + 1, le_rfl, k, by rw [Routed.growPg_top, ← e, hT.routed.top]⟩
    · exact ⟨H, by omega, x, by rw [Routed.growPg_new, rootSide_right hx, hb]⟩
    · obtain rfl : i = created + 1 := by omega
      exact ⟨H, by omega, mid, by rw [Routed.growPg_new, rootSide_left le_rfl, ha]⟩

variable {n : BInnerNode K} {n₀ nl nr : BLeafNode K V}

/-- A full root leaf becomes a root over two leaves. -/
theorem grow_leaf (hT : TreeInv ids N mem header created 0 pg L)
    (hinj : ∀ i j, ids i = ids j → i = j) (ha : a = ids (created + 1)) (hb : b = ids created)
    {x : K} (hx : mid < x) (hn : mem header.rootID = some (.leaf n₀))
    (hroot : mem' header.rootID = some (.inner (newRootNode mid a b)))
    (hl : mem' a = some (.leaf nl)) (hr : mem' b = some (.leaf nr))
    (hv : ∀ id, id ≠ header.rootID → id ≠ a → id ≠ b → mem' id = mem id)
    (hlok : LeafOk N nl) (hrok : LeafOk N nr)
    (hkl : ∀ x ∈ Fanout.pivotSet nl.keys nl.size, x ≤ mid)
    (hkr : ∀ x ∈ Fanout.pivotSet nr.keys nr.size, mid < x)
    (hgl : ∀ k ≤ mid, nl.get k = n₀.get k) (hgr : ∀ k, mid < k → nr.get k = n₀.get k) :
    TreeInv ids N mem' { header with leafRoot := false } (created + 2) 1
      (Routed.growPg pg 0 header.rootID (rootSide mid a b)) L := by
  have hab : a ≠ b := by
    rw [ha, hb]
    exact fun e => absurd (hinj _ _ e) (by omega)
  have hfresh : ∀ k, ∀ h ≤ 0, ∀ k', rootSide mid a b k ≠ pg h k' := by
    intro k h hh k'
    rcases rootSide_cases mid a b k with ⟨-, e⟩ | ⟨-, e⟩
    · rw [e, ha]; exact (hT.fresh_page hinj (by omega) hh k').symm
    · rw [e, hb]; exact (hT.fresh_page hinj (by omega) hh k').symm
  refine hT.of_grow hab ha hb hx (hT.routed.grow hfresh
    (by rw [views_inner hroot, Fanout.view, route_newRoot]) (mem_childSet_newRoot hx)
    (fun _ k => ?_) (fun g hg => by omega) (fun g hg => by omega) fun id h₁ h₂ => ?_)
    hroot hl hlok hr hrok hv fun k m hm => ?_
  · rcases rootSide_cases mid a b k with ⟨hk, e⟩ | ⟨hk, e⟩
    · rw [e]
      exact ⟨_, views_leaf hl, fun y hy => rootSide_left (hkl y hy)⟩
    · rw [e]
      exact ⟨_, views_leaf hr, fun y hy => rootSide_right (hkr y hy)⟩
  · rw [views, hv id h₁ (fun e => h₂ mid (e.trans (rootSide_left le_rfl).symm))
      (fun e => h₂ x (e.trans (rootSide_right hx).symm)), views]
  · rw [Routed.growPg_new] at hm
    have hold := hT.data k n₀ (by rw [hT.routed.top k]; exact hn)
    rcases rootSide_cases mid a b k with ⟨hk, e⟩ | ⟨hk, e⟩
    · rw [e, hl] at hm
      obtain rfl := by simpa using hm
      rw [hgl k hk, hold]
    · rw [e, hr] at hm
      obtain rfl := by simpa using hm
      rw [hgr k hk, hold]

/-- A full inner root becomes a root over its two halves. -/
theorem grow_inner (hT : TreeInv ids N mem header created H pg L) (hH : 0 < H)
    (hinj : ∀ i j, ids i = ids j → i = j) (ha : a = ids (created + 1)) (hb : b = ids created)
    (hn : mem header.rootID = some (.inner n)) {s : ℕ} (hs₁ : 1 ≤ s) (hs₂ : s + 1 < n.size)
    {pd : Slots K} {cd : Slots PageId}
    (hroot : mem' header.rootID = some (.inner (newRootNode (n.pivots s) a b)))
    (hl : mem' a = some (.inner { n with size := s }))
    (hr : mem' b = some (.inner ⟨Fanout.dropPiv n.pivots n.size s pd,
      Fanout.dropCh n.children n.size s cd, n.size - (s + 1)⟩))
    (hv : ∀ id, id ≠ header.rootID → id ≠ a → id ≠ b → mem' id = mem id) :
    TreeInv ids N mem' header (created + 2) (H + 1)
      (Routed.growPg pg H header.rootID (rootSide (n.pivots s) a b)) L := by
  obtain ⟨g, rfl⟩ : ∃ g, H = g + 1 := ⟨H - 1, by omega⟩
  have hab : a ≠ b := by
    rw [ha, hb]
    exact fun e => absurd (hinj _ _ e) (by omega)
  have hflag : header = { header with leafRoot := false } := by
    have := hT.flag
    cases header
    simp_all
  have hok : InnerNodeOk N n := hT.nodes _ _ hn
  have hx : n.pivots s < n.pivots (s + 1) := hok.sorted s (s + 1) (by omega) hs₂
  have hfresh : ∀ k, ∀ h ≤ g + 1, ∀ k', rootSide (n.pivots s) a b k ≠ pg h k' := by
    intro k h hh k'
    rcases rootSide_cases (n.pivots s) a b k with ⟨-, e⟩ | ⟨-, e⟩
    · rw [e, ha]; exact (hT.fresh_page hinj (by omega) hh k').symm
    · rw [e, hb]; exact (hT.fresh_page hinj (by omega) hh k').symm
  have htop : ∀ k k', pg (g + 1) k = pg (g + 1) k' := fun k k' => by
    rw [hT.routed.top, hT.routed.top]
  obtain ⟨hfl, hfr, hPl, hPr, hCl, hCr, hside⟩ := Fanout.halves_step hT.routed (g := g)
    (by omega) (show views mem (pg (g + 1) (n.pivots s)) = _ by
      rw [hT.routed.top]; exact views_inner hn) hok.sorted hok.distinct
    (s := s) (by omega)
  rw [hflag]
  refine hT.of_grow hab ha hb hx (hT.routed.grow hfresh
    (by rw [views_inner hroot, Fanout.view, route_newRoot]) (mem_childSet_newRoot hx)
    (fun h0 => by omega) (fun g' hg' k => ?_) (fun g' hg' k k' e => ?_) fun id h₁ h₂ => ?_)
    hroot hl ⟨hok.sorted.mono (show s ≤ n.size by omega),
      Fanout.distinct_take hok.distinct (show s ≤ n.size by omega), hs₁,
      by have := hok.size_le; simp only; omega⟩ hr
    ⟨Fanout.sorted_drop hok.sorted, Fanout.distinct_drop hok.distinct (by omega), by simp only; omega,
      by have := hok.size_le; simp only; omega⟩ hv fun k m hm => ?_
  · obtain rfl : g' = g := by omega
    rcases rootSide_cases (n.pivots s) a b k with ⟨hk, e⟩ | ⟨hk, e⟩
    · rw [e]
      refine ⟨_, _, _, views_inner hl, (hfl k (htop _ _) hk).1, (hfl k (htop _ _) hk).2,
        fun y hy => rootSide_left (hPl y hy).2, fun c hc => ?_⟩
      obtain ⟨y, h₁, -, h₂⟩ := hCl c hc
      exact ⟨y, h₁, rootSide_left h₂⟩
    · rw [e]
      refine ⟨_, _, _, views_inner hr, (hfr k (htop _ _) hk).1, (hfr k (htop _ _) hk).2,
        fun y hy => rootSide_right (hPr y hy).2, fun c hc => ?_⟩
      obtain ⟨y, h₁, -, h₂⟩ := hCr c hc
      exact ⟨y, h₁, rootSide_right h₂⟩
  · obtain rfl : g' = g := by omega
    exact (rootSide_inj hab).mpr (hside k k' (htop _ _) e)
  · rw [views, hv id h₁ (fun e => h₂ _ (e.trans (rootSide_left le_rfl).symm))
      (fun e => h₂ _ (e.trans (rootSide_right hx).symm)), views]
  · rw [Routed.growPg_old (by omega)] at hm
    have hne : pg 0 k ≠ header.rootID := by
      rw [← hT.routed.top k]
      exact hT.routed.page_ne (by omega) le_rfl (by omega)
    rw [hv _ hne (by rw [ha]; exact hT.fresh_page hinj (by omega) (by omega) k)
      (by rw [hb]; exact hT.fresh_page hinj (by omega) (by omega) k)] at hm
    exact hT.data k m hm

end Grow

end TreeInv

end BEpsilon.BTree
