import BEpsilon.BeTree.SplitRoot

/-!
# BEpsilon.BeTree.RootSplit — what a split root node keeps

The last new child takes at most `INNER_N / 2` pivots.  Where `INNER_N / 2 + 1` divides the number of pivots
of the root node, one pivot and one child are left over, and no node has them afterwards.
-/

namespace BEpsilon.BeTree

open Slots PageWorld

variable {K V : Type}

/-- The new children and the middle pivots have the children and pivots of the root node `r`, and the root
page has the new children and the middle pivots. -/
structure LosesNothing (N : NodeSizes) (r : BeRootNode K) (rootPage : PageId) (newChildren : List PageId)
    (midPivots : List K) (mem : PageId → Option (BeNode K V)) : Prop where
  nodes : ∃ nodes : List (BeInnerNode K V),
    newChildren.map mem = nodes.map (fun n => some (.inner n)) ∧
    nodes.flatMap (fun n => toList n.children (n.size + 1)) = toList r.children (r.size + 1) ∧
    midPivots.length + 1 = nodes.length ∧
    Fanout.weave (nodes.map fun n => toList n.pivots n.size) midPivots = toList r.pivots r.size ∧
    ∀ n ∈ nodes, 1 ≤ n.size ∧ n.size ≤ N.INNER_N / 2
  root : ∃ nr : BeRootNode K, mem rootPage = some (.root nr) ∧
    toList nr.children (nr.size + 1) = newChildren ∧ toList nr.pivots nr.size = midPivots

section Cut

variable {ids : ℕ → PageId} {N : NodeSizes} {r : BeRootNode K} {mem₀ mem : PageId → Option (BeNode K V)}
  {created : ℕ} {s : RootSplit K} {rootPage : PageId}

/-- The page of the root node is written last. -/
def RootSplit.finish (s : RootSplit K) (rootPage : PageId) (mem : PageId → Option (BeNode K V)) :
    PageId → Option (BeNode K V) :=
  Function.update mem rootPage (some (.root { s.rootNode with size := s.newRootSize }))

variable (hC : RootCut ids N.chunk r mem₀ created (midCount r.size N.chunk + 1) s mem)
  (hne : ∀ j, ids (created + j) ≠ rootPage)
include hC hne

/-- The new nodes one by one. -/
theorem RootCut.nodes_at : ∃ node : ℕ → BeInnerNode K V, ∀ t ≤ midCount r.size N.chunk,
    s.finish rootPage mem (ids (created + t)) = some (.inner (node t)) ∧
      Fanout.Chunk r.pivots r.children r.size N.chunk t (node t).pivots (node t).children (node t).size := by
  have h : ∀ t, ∃ n : BeInnerNode K V, t ≤ midCount r.size N.chunk →
      mem (ids (created + t)) = some (.inner n) ∧
        Fanout.Chunk r.pivots r.children r.size N.chunk t n.pivots n.children n.size := by
    intro t
    by_cases ht : t ≤ midCount r.size N.chunk
    · obtain ⟨n, hn, hc, -⟩ := hC.new t (Nat.lt_succ_of_le ht)
      exact ⟨n, fun _ => ⟨hn, hc⟩⟩
    · obtain ⟨n, -⟩ := hC.new 0 (Nat.succ_pos _)
      exact ⟨n, fun h => absurd h ht⟩
  choose node hnode using h
  exact ⟨node, fun t ht => ⟨(Function.update_of_ne (hne t) _ _).trans (hnode t ht).1, (hnode t ht).2⟩⟩

/-- The children of any list of nodes on the new pages: those of the root node up to the end of the last
chunk. -/
theorem RootCut.children_eq (hpos : 0 < r.size) {nodes : List (BeInnerNode K V)}
    (hnodes : s.newChildren.map (s.finish rootPage mem) = nodes.map fun n => some (.inner n)) :
    nodes.flatMap (fun n => toList n.children (n.size + 1)) =
      toList r.children (midCount r.size N.chunk * N.chunk +
        min (N.chunk - 1) (r.size - midCount r.size N.chunk * N.chunk) + 1) ∧
    (nodes.length = midCount r.size N.chunk + 1) ∧
    Fanout.weave (nodes.map fun n => toList n.pivots n.size) s.midPivots =
      toList r.pivots (midCount r.size N.chunk * N.chunk +
        min (N.chunk - 1) (r.size - midCount r.size N.chunk * N.chunk)) ∧
    ∀ n ∈ nodes, 1 ≤ n.size ∧ n.size ≤ N.INNER_N / 2 := by
  obtain ⟨node, hnode⟩ := hC.nodes_at hne
  have hw : 0 < N.chunk := Nat.succ_pos _
  have hwidth : N.chunk - 1 = N.INNER_N / 2 := rfl
  have hinner := N.inner_ge
  have hm : midCount r.size N.chunk * N.chunk < r.size := by
    have := Nat.div_mul_le_self (r.size - 1) N.chunk
    rw [midCount]
    omega
  have heq : nodes = (List.range (midCount r.size N.chunk + 1)).map node := by
    refine List.map_injective_iff.mpr (fun a b h => BeNode.inner.inj (Option.some.inj h)) (hnodes.symm.trans ?_)
    rw [hC.newChildren, List.map_map, List.map_map]
    exact List.map_congr_left fun t ht => (hnode t (Nat.le_of_lt_succ (List.mem_range.mp ht))).1
  have hmids := hC.midPivots
  rw [min_eq_right (Nat.le_succ _)] at hmids
  have hlast := (hnode _ le_rfl).2.size
  refine ⟨?_, by simp [heq], ?_, fun n hn => ?_⟩
  · rw [heq, List.flatMap_map, ← hlast]
    exact Fanout.flatMap_children hw hm fun t ht => (hnode t ht).2
  · rw [heq, List.map_map, hmids, ← hlast]
    exact Fanout.weave_pivots hw hm fun t ht => (hnode t ht).2
  · obtain ⟨t, ht, rfl⟩ := List.mem_map.mp (heq ▸ hn)
    have hle := Nat.le_of_lt_succ (List.mem_range.mp ht)
    have hsize := (hnode t hle).2.size
    have : t * N.chunk ≤ midCount r.size N.chunk * N.chunk := Nat.mul_le_mul_right _ hle
    omega

/-- Nothing is lost exactly where the number of pivots is no multiple of the number of children that the new
children get. -/
theorem RootCut.losesNothing_iff (hpos : 0 < r.size) :
    LosesNothing N r rootPage s.newChildren s.midPivots (s.finish rootPage mem) ↔ r.size % N.chunk ≠ 0 := by
  have hw : 0 < N.chunk := Nat.succ_pos _
  have hdiv := Nat.div_add_mod r.size N.chunk
  have hmod := Nat.mod_lt r.size hw
  constructor
  · rintro ⟨⟨nodes, hnodes, hch, -⟩, -⟩ h0
    -- the last chunk ends one child too early
    have hlen := congrArg List.length ((hC.children_eq hne hpos hnodes).1.symm.trans hch)
    rw [length_toList, length_toList] at hlen
    have hm : midCount r.size N.chunk * N.chunk + N.chunk = r.size := by
      have hd : midCount r.size N.chunk + 1 = r.size / N.chunk := by
        obtain ⟨q, hq⟩ := Nat.dvd_of_mod_eq_zero h0
        have hq0 : 0 < q := Nat.pos_of_ne_zero fun e => by simp [hq, e] at hpos
        rw [midCount, hq, Nat.mul_div_cancel_left _ hw]
        obtain ⟨q, rfl⟩ : ∃ q', q = q' + 1 := ⟨q - 1, by omega⟩
        have : N.chunk * (q + 1) - 1 = (N.chunk - 1) + N.chunk * q := by
          rw [Nat.mul_add, Nat.mul_one]
          omega
        rw [this, Nat.add_mul_div_left _ _ hw, Nat.div_eq_of_lt (by omega), Nat.zero_add]
      rw [← Nat.succ_mul, Nat.succ_eq_add_one, hd, Nat.mul_comm]
      omega
    omega
  · intro h
    have hm : midCount r.size N.chunk = r.size / N.chunk := midCount_of_mod h
    have hend : midCount r.size N.chunk * N.chunk +
        min (N.chunk - 1) (r.size - midCount r.size N.chunk * N.chunk) = r.size := by
      rw [hm, Nat.mul_comm]
      omega
    have hmin : min (midCount r.size N.chunk + 1) (midCount r.size N.chunk) = midCount r.size N.chunk :=
      min_eq_right (Nat.le_succ _)
    obtain ⟨node, hnode⟩ := hC.nodes_at hne
    have hnodes : s.newChildren.map (s.finish rootPage mem) =
        ((List.range (midCount r.size N.chunk + 1)).map node).map fun n => some (.inner n) := by
      rw [hC.newChildren, List.map_map, List.map_map]
      exact List.map_congr_left fun t ht => (hnode t (Nat.le_of_lt_succ (List.mem_range.mp ht))).1
    obtain ⟨hch, hlen, hpv, hsizes⟩ := hC.children_eq hne hpos hnodes
    rw [hend] at hch hpv
    have hmidlen : s.midPivots.length = midCount r.size N.chunk := by simp [hC.midPivots]
    have hroot := hC.newRootSize
    have hsep := hC.separators
    have hmids := hC.midPivots
    rw [hmin] at hroot hsep hmids
    refine ⟨⟨_, hnodes, hch, by rw [hlen, hmidlen], hpv, hsizes⟩, _, Function.update_self _ _ _, ?_, ?_⟩
    · show toList s.rootNode.children (s.newRootSize + 1) = _
      rw [hroot, hC.newChildren]
      exact List.map_congr_left fun t ht => hC.new_children t (List.mem_range.mp ht)
    · show toList s.rootNode.pivots s.newRootSize = _
      rw [hroot, hmids]
      exact List.map_congr_left fun t ht => hsep t (List.mem_range.mp ht)

end Cut

variable {N : NodeSizes} {O : Unspecified K V} {R : PageRules} {r : BeRootNode K} {w : PageWorld (BeNode K V) Header}
  {rootPage : PageId}

theorem splitRootNode_cut (hlim : R.limit = none) (hpos : 0 < r.size) (hr : w.mem rootPage = some (.root r))
    (hpin : rootPage ∈ w.pins.map Prod.fst)
    (hfresh : ∀ j, w.mem (R.ids (w.created + j)) = none ∧ R.ids (w.created + j) ∉ w.pins.map Prod.fst) :
    Runs (handler R) (splitRootNode N O rootPage) w fun res w' =>
      ∃ s mem, RootCut R.ids N.chunk r w.mem w.created (midCount r.size N.chunk + 1) s mem ∧
        res = (s.newChildren, s.midPivots) ∧ w'.mem = s.finish rootPage mem := by
  obtain ⟨mem, created, header, pins, recent, kept⟩ := w
  dsimp only at hr hpin hfresh
  have hp : PinsAre pins (pins.map Prod.fst) := List.Perm.refl _
  simp only [splitRootNode, Prog.bind_def, Prog.pure_def]
  refine (runs_asRoot hr (.inl (hp.pinned hpin)) (runs_bind ?_))
  refine (splitRootChildren_spec hlim hpos (l := pins.map Prod.fst) hfresh
    (show RootCutAt R N.chunk r mem created header kept (pins.map Prod.fst) 0 { rootNode := r }
      ⟨mem, created, header, pins, recent, kept⟩ from ⟨.start, rfl, hp, rfl, rfl⟩)).mono ?_
  rintro s ⟨mem₁, created₁, header₁, pins₁, recent₁, kept₁⟩ ⟨hC, hcr, hp₁, he, hk⟩
  refine runs_write (hp₁.pinned (List.mem_append_right _ hpin)) (runs_ret ?_)
  exact ⟨s, mem₁, hC, rfl, rfl⟩

/-- A full root node that is split loses nothing exactly where `INNER_N / 2 + 1` does not divide `ROOT_N`. -/
theorem splitRootNode_losesNothing_iff (hge : N.INNER_N ≤ N.ROOT_N) (hlim : R.limit = none)
    (hr : w.mem rootPage = some (.root r)) (hfull : r.size = N.ROOT_N) (hpin : rootPage ∈ w.pins.map Prod.fst)
    (hfresh : ∀ j, w.mem (R.ids (w.created + j)) = none ∧ R.ids (w.created + j) ∉ w.pins.map Prod.fst) :
    Runs (handler R) (splitRootNode N O rootPage) w fun res w' =>
      (LosesNothing N r rootPage res.1 res.2 w'.mem ↔ N.ROOT_N % (N.INNER_N / 2 + 1) ≠ 0) := by
  have hpos : 0 < r.size := by
    have := N.inner_ge
    omega
  refine (splitRootNode_cut hlim hpos hr hpin hfresh).mono ?_
  rintro _ w' ⟨s, mem, hC, rfl, hmem⟩
  rw [hmem, ← hfull]
  refine hC.losesNothing_iff (fun j e => ?_) hpos
  have h := (hfresh j).1
  rw [e, hr] at h
  simp at h

/-! ### Two root nodes -/

/-- A root node of `n` pivots over `n + 1` leaves, pinned for its split. -/
def splittingRoot (n : ℕ) : PageWorld (BeNode ℕ ℕ) Header where
  mem id := if id = 0 then some (.root ⟨fun i => i, fun i => i + 1, n⟩)
    else if id ≤ n + 1 then some (.leaf (.fresh default)) else none
  created := n + 2
  header := { rootLeaf := false }
  pins := [(0, some (.root ⟨fun i => i, fun i => i + 1, n⟩))]
  recent := []
  kept := True

theorem splittingRoot_fresh (n j : ℕ) : (splittingRoot n).mem (id ((splittingRoot n).created + j)) = none ∧
    id ((splittingRoot n).created + j) ∉ (splittingRoot n).pins.map Prod.fst := by
  refine ⟨?_, by simp [splittingRoot]⟩
  show (if n + 2 + j = 0 then _ else if n + 2 + j ≤ n + 1 then _ else _) = _
  rw [if_neg (by omega), if_neg (by omega)]

/-- Seven pivots are dealt out to three inner nodes of at most two pivots. -/
theorem splitRootNode_losesNothing_iff_seven :
    Runs (handler ⟨true, none, id, fun _ _ h => h⟩)
      (splitRootNode ⟨10, 2, 5, 7, by decide, by decide, rfl⟩ (.basic _ _) 0) (splittingRoot 7) fun res w' =>
        LosesNothing ⟨10, 2, 5, 7, by decide, by decide, rfl⟩ ⟨fun i => i, fun i => i + 1, 7⟩ 0 res.1 res.2
          w'.mem :=
  (splitRootNode_losesNothing_iff (N := ⟨10, 2, 5, 7, by decide, by decide, rfl⟩) (by decide) rfl rfl rfl
    (List.mem_singleton_self _) (splittingRoot_fresh 7)).mono fun _ _ h => h.mpr (by decide)

/-- Nine pivots: the ninth one and the tenth child are lost. -/
theorem splitRootNode_loses_ninth :
    ¬ Runs (handler ⟨true, none, id, fun _ _ h => h⟩)
      (splitRootNode ⟨10, 2, 5, 9, by decide, by decide, rfl⟩ (.basic _ _) 0) (splittingRoot 9) fun res w' =>
        LosesNothing ⟨10, 2, 5, 9, by decide, by decide, rfl⟩ ⟨fun i => i, fun i => i + 1, 9⟩ 0 res.1 res.2
          w'.mem := by
  intro hruns
  have hcut := splitRootNode_cut (O := .basic _ _) (N := ⟨10, 2, 5, 9, by decide, by decide, rfl⟩)
    (R := ⟨true, none, id, fun _ _ h => h⟩) rfl
    (by decide) (show (splittingRoot 9).mem 0 = some (.root ⟨fun i => i, fun i => i + 1, 9⟩) from rfl)
    (List.mem_singleton_self _) (splittingRoot_fresh 9)
  obtain ⟨-, res, w', -, hlost, s, mem, hC, rfl, hmem⟩ := hruns.det hcut
  rw [hmem] at hlost
  refine (hC.losesNothing_iff (fun j e => ?_) (by decide)).mp hlost rfl
  exact absurd (show 9 + 2 + j = 0 from e) (by omega)

end BEpsilon.BeTree
