import BEpsilon.BeTree.Content

/-!
# BEpsilon.BeTree.Structure — the shape of the Bε-tree

`Subtree` says, page by page, what the subtree below a page of the root node looks like: all leaves at
one depth, sorted nodes and buffers within their capacities, and every key and message between the pivots
around it.  `WellFormed` adds the root page and what concerns the whole tree.  The invariant of the proofs
implies both, so that they hold after every call; the time stamps are in order until they wrap.
-/

namespace BEpsilon.BeTree

open Slots Keyed Fanout PageWorld

section Shape

variable {K V : Type}

/-- The children of a node, one more than pivots. -/
def BeNode.childPages : BeNode K V → List PageId
  | .root n => toList n.children (n.size + 1)
  | .inner n => toList n.children (n.size + 1)
  | .leaf _ => []

/-- Child `e.2` of page `e.1` is the page `id`. -/
def IsChild (mem : PageId → Option (BeNode K V)) (id : PageId) (e : PageId × ℕ) : Prop :=
  ∃ d, mem e.1 = some d ∧ d.childPages[e.2]? = some id

variable [LinearOrder K]

/-- The subtree of height `h` below a page, whose keys and messages lie above `lo` and at or below `hi`. -/
def Subtree (N : NodeSizes) (mem : PageId → Option (BeNode K V)) :
    ℕ → PageId → Option K → Option K → Prop
  | 0, id, lo, hi => ∃ n, mem id = some (.leaf n) ∧ Sorted n.keys n.size ∧ n.size ≤ N.LEAF_N ∧
      ∀ i < n.size, Within lo hi (n.keys i)
  | h + 1, id, lo, hi => ∃ n, mem id = some (.inner n) ∧ Sorted n.pivots n.size ∧ n.size ≤ N.INNER_N ∧
      KeysSorted Upsert.key n.upserts.toList ∧ n.upserts.size ≤ N.INNER_B_N ∧
      (∀ u ∈ n.upserts.toList, Within lo hi u.key) ∧ (∀ i < n.size, Within lo hi (n.pivots i)) ∧
      ∀ i ≤ n.size, Subtree N mem h (n.children i) (leftBound n.pivots lo i)
        (rightBound n.pivots n.size hi i)

/-- A root node with the subtrees of height `h` below it. -/
def RootNode (N : NodeSizes) (mem : PageId → Option (BeNode K V)) (h : ℕ) (id : PageId) : Prop :=
  ∃ n, mem id = some (.root n) ∧ Sorted n.pivots n.size ∧ n.size ≤ N.ROOT_N ∧
    ∀ i ≤ n.size, Subtree N mem h (n.children i) (leftBound n.pivots none i)
      (rightBound n.pivots n.size none i)

/-- The pages in memory are one Bε-tree below the root page. -/
structure WellFormed (N : NodeSizes) (mem : PageId → Option (BeNode K V)) (header : Header) : Prop where
  /-- `header.rootLeaf` tells what the root page is. -/
  flag : header.rootLeaf = true ↔ ∃ n, mem header.rootID = some (.leaf n)
  tree : Subtree N mem 0 header.rootID none none ∨ ∃ h, RootNode N mem h header.rootID
  /-- There is no other root node. -/
  single : ∀ id n, mem id = some (.root n) → id = header.rootID
  /-- Every page occurs once as a child, the root page never. -/
  child : ∀ id, mem id ≠ none → id ≠ header.rootID → ∃! e, IsChild mem id e
  root : ∀ e, ¬ IsChild mem header.rootID e

/-- On every path the time stamps of a key's messages strictly decrease from a node to its descendants. -/
def StampsDecrease (w : PageWorld (BeNode K V) Header) : Prop :=
  ∀ key, (pathMessages w.mem key w.created w.header.rootID).Pairwise fun u v => v.timeStamp < u.timeStamp

variable {ids : ℕ → PageId} {N : NodeSizes} {mem : PageId → Option (BeNode K V)} {header : Header}
  {created H : ℕ} {pg : ℕ → K → PageId}

/-- The place of the child that `k` is routed to. -/
def BeNode.childIndex (k : K) : BeNode K V → ℕ
  | .root n => lowerBound n.pivots n.size k
  | .inner n => lowerBound n.pivots n.size k
  | .leaf _ => 0

/-- The children of a node as its arrays have them. -/
theorem NodeOk.arrays {h : ℕ} {d : BeNode K V} (hd : NodeOk N h H d) {i : ℕ} {id : PageId}
    (hi : d.childPages[i]? = some id) :
    ∃ piv ch n, d.view = Fanout.view piv ch n ∧ Distinct ch n ∧ i ≤ n ∧ ch i = id ∧
      ∀ k, d.childIndex k = lowerBound piv n k := by
  cases d with
  | leaf n => simp [BeNode.childPages] at hi
  | inner n =>
    obtain ⟨hlt, e⟩ := List.getElem?_eq_some_iff.mp hi
    exact ⟨_, _, _, rfl, hd.2.distinct, by simpa [BeNode.childPages, Nat.lt_succ_iff] using hlt,
      by simpa [BeNode.childPages] using e, fun _ => rfl⟩
  | root n =>
    obtain ⟨hlt, e⟩ := List.getElem?_eq_some_iff.mp hi
    exact ⟨_, _, _, rfl, hd.2.distinct, by simpa [BeNode.childPages, Nat.lt_succ_iff] using hlt,
      by simpa [BeNode.childPages] using e, fun _ => rfl⟩

theorem childPages_route {ch : Slots PageId} {piv : Slots K} {n : ℕ} (k : K) :
    (toList ch (n + 1))[lowerBound piv n k]? = some (ch (lowerBound piv n k)) := by
  have hle := lowerBound_le piv n k
  rw [List.getElem?_eq_getElem (by rw [length_toList]; omega), getElem_toList]

namespace TreeInv

/-- The subtree of every page below the root node. -/
theorem subtree (hT : TreeInv ids N mem noFlight header created H pg) {h : ℕ} (hh : h < H ∨ H = 0 ∧ h = 0)
    (k : K) {lo hi : Option K} (hk : ∀ x, pg h x = pg h k → Within lo hi x) :
    Subtree N mem h (pg h k) lo hi := by
  induction h generalizing k lo hi with
  | zero =>
    obtain ⟨n, hn, hok, hkeys⟩ := hT.leaf_page k
    exact ⟨n, hn, hok.sorted, hok.size_le, fun i hi => hk _ (hkeys _ ⟨i, hi, rfl⟩)⟩
  | succ h ih =>
    have hlt : h + 1 < H := by omega
    obtain ⟨n, hn, hok, -⟩ := hT.inner_page hlt k
    have hw : waitingAt mem noFlight (pg (h + 1) k) = n.upserts.toList := by
      rw [waitingAt_inner hn]
      rfl
    obtain ⟨-, hpiv, -⟩ := inner_facts hT.routed (by omega) (views_inner hn)
    refine ⟨n, hn, hok.sorted, hok.size_le, hok.upserts, hok.upserts_le, fun u hu => hk _ ?_,
      fun i hi => hk _ (hpiv _ ⟨i, hi, rfl⟩), fun i hi => ?_⟩
    · exact (hT.waiting (h + 1) hlt.le k).range u (hw ▸ hu)
    · obtain ⟨x₀, hx₀, hwithin⟩ :=
        child_within hT.routed (by omega) (views_inner hn) hok.distinct hi hk
      rw [← hx₀]
      exact ih (.inl (by omega)) x₀ hwithin

/-- A page below the root page is a child of the page above it. -/
theorem childPage (hT : TreeInv ids N mem noFlight header created H pg) {h : ℕ} (hh : h < H) (k : K) :
    ∃ d, mem (pg (h + 1) k) = some d ∧ d.childPages[d.childIndex k]? = some (pg h k) := by
  rcases (by omega : h + 1 < H ∨ H = h + 1) with hlt | rfl
  · obtain ⟨n, hn, -, hchild⟩ := hT.inner_page hlt k
    exact ⟨.inner n, hn, (childPages_route k).trans (congrArg some hchild)⟩
  · obtain ⟨n, hn, -, hchild⟩ := hT.root_page k
    exact ⟨.root n, by rw [hT.routed.top, hn], (childPages_route k).trans (congrArg some hchild)⟩

/-- A page that is a child stands below its parent, at the place that its keys are routed to. -/
theorem of_isChild (hT : TreeInv ids N mem noFlight header created H pg) {h : ℕ} (hh : h ≤ H) (k : K)
    {e : PageId × ℕ} (he : IsChild mem (pg h k) e) :
    h < H ∧ ∃ d, mem (pg (h + 1) k) = some d ∧ e = (pg (h + 1) k, d.childIndex k) := by
  obtain ⟨p, i⟩ := e
  obtain ⟨d, hd, hi⟩ := he
  dsimp only at hd hi
  -- the parent is in the tree as well
  obtain ⟨j, hj, rfl⟩ := hT.known p (by simp [hd])
  obtain ⟨g, hg, k', e⟩ := hT.all j hj
  rw [← e] at hd ⊢
  obtain ⟨piv, ch, n, hv, hdis, hin, hch, hindex⟩ := (hT.nodes g hg k' d hd).arrays hi
  have hview : views mem (pg g k') = some (Fanout.view piv ch n) := by rw [views, hd, Option.map_some, hv]
  cases g with
  | zero =>
    obtain ⟨m, hm, -⟩ := hT.leaf_page k'
    rw [views_leaf hm] at hview
    simp [Fanout.view] at hview
  | succ g =>
    obtain ⟨rfl, h₁, h₂⟩ := parent_unique hT.routed (by omega) hview hdis hin hh hch
    exact ⟨by omega, d, by rw [← h₁, hd], by rw [h₁, h₂, hindex]⟩

/-- A page below the root page is the child of the page above it on its path, and of no other. -/
theorem child_unique (hT : TreeInv ids N mem noFlight header created H pg) {h : ℕ} (hh : h < H) (k : K) :
    ∃! e, IsChild mem (pg h k) e := by
  obtain ⟨d, hd, hchild⟩ := hT.childPage hh k
  refine ⟨(pg (h + 1) k, d.childIndex k), ⟨d, hd, hchild⟩, fun e he => ?_⟩
  obtain ⟨-, d', hd', rfl⟩ := hT.of_isChild hh.le k he
  obtain rfl := Option.some.inj (hd.symm.trans hd')
  rfl

/-- A page that is not on a path is not in memory. -/
theorem on_path (hT : TreeInv ids N mem noFlight header created H pg) (id : PageId) (hid : mem id ≠ none) :
    ∃ h ≤ H, ∃ k, pg h k = id := by
  obtain ⟨j, hj, rfl⟩ := hT.known id hid
  exact hT.all j hj

theorem wellFormed [Nonempty K] (hT : TreeInv ids N mem noFlight header created H pg) :
    WellFormed N mem header := by
  obtain ⟨k₀⟩ := ‹Nonempty K›
  have htop : pg H k₀ = header.rootID := hT.routed.top k₀
  refine ⟨?_, ?_, fun id n hn => ?_, fun id hid hne => ?_, fun e he => ?_⟩
  · rw [hT.flag]
    cases H with
    | zero =>
      obtain ⟨n, hn, -⟩ := hT.root_leaf k₀
      simp [hn]
    | succ h =>
      obtain ⟨n, hn, -⟩ := hT.root_page k₀
      simp [hn]
  · cases H with
    | zero =>
      rw [← htop]
      exact .inl (hT.subtree (.inr ⟨rfl, rfl⟩) k₀ fun _ _ => ⟨by simp, by simp⟩)
    | succ h =>
      obtain ⟨n, hn, hok, -⟩ := hT.root_page k₀
      refine .inr ⟨h, n, hn, hok.sorted, hok.size_le, fun i hi => ?_⟩
      obtain ⟨x₀, hx₀, hwithin⟩ := child_within hT.routed (Nat.lt_succ_self h)
        (show views mem (pg (h + 1) k₀) = _ by rw [htop]; exact views_root hn) hok.distinct hi (a := none) (b := none)
        fun _ _ => ⟨by simp, by simp⟩
      rw [← hx₀]
      exact hT.subtree (.inl (Nat.lt_succ_self h)) x₀ hwithin
  · obtain ⟨h, hh, k, rfl⟩ := hT.on_path id (by simp [hn])
    obtain rfl : h = H := (hT.nodes h hh k _ hn).1
    exact hT.routed.top k
  · obtain ⟨h, hh, k, rfl⟩ := hT.on_path id hid
    rcases hh.lt_or_eq with hlt | rfl
    · exact hT.child_unique hlt k
    · exact absurd (hT.routed.top k) hne
  · rw [← htop] at he
    exact absurd (hT.of_isChild le_rfl k₀ he).1 (lt_irrefl _)

/-! ### Time stamps -/

theorem pathMessages_pairwise [Add V] {T : K → ℕ} {C : K → Option V}
    (hT : TreeInv ids N mem noFlight header created H pg) (hH : Held T mem noFlight pg H C) {key : K}
    {h fuel : ℕ} (hh : h ≤ H) :
    (pathMessages mem key fuel (pg h key)).Pairwise fun u v => v.timeStamp < u.timeStamp := by
  induction h generalizing fuel with
  | zero =>
    rw [hT.pathMessages_zero]
    exact List.Pairwise.nil
  | succ h ih =>
    cases fuel with
    | zero => exact List.Pairwise.nil
    | succ fuel =>
      rw [hT.pathMessages_succ hh, List.pairwise_append]
      refine ⟨?_, ih (by omega), fun u hu v hv => ?_⟩
      · cases levels mem noFlight pg H (h + 1) key with
        | none => exact List.Pairwise.nil
        | some u => exact List.pairwise_singleton _ _
      · obtain ⟨g, hg, hl⟩ := hT.mem_pathMessages (by omega) hv
        exact hH.ordered.stamps key g (h + 1) v u (by omega) hl (by simpa using hu)

end TreeInv

end Shape

variable {K V : Type} [LinearOrder K] [BoundedOrder K] [DecidableEq V] [Add V] [Inhabited K] [Inhabited V]

/-- On an ideal store, with asserts compiled out, the pages are one Bε-tree below the root page after every
call of a session; as long as fewer than 2⁶⁴ calls were made, the time stamps decrease on every path. -/
theorem session_structure (ids : ℕ → PageId) (ids_inj : ∀ i j, ids i = ids j → i = j) {N : NodeSizes}
    (hN : N.Roomy) (O : Unspecified K V) (ms : List (Mutation K V)) :
    Runs (handler ⟨false, none, ids, ids_inj⟩) (session N O ms) (empty {}) fun _ w =>
      WellFormed N w.mem w.header ∧ (ms.length < 2 ^ 64 → StampsDecrease w) := by
  refine (session_spec (A := ms.length < UInt64.size) rfl hN ms id (PageRules.off rfl)).mono fun _ w h => ?_
  obtain ⟨H, pg, hK⟩ := h.1.tree
  refine ⟨hK.inv.wellFormed, fun hlt key => ?_⟩
  rw [← hK.inv.routed.top key]
  exact hK.inv.pathMessages_pairwise (hK.held hlt) le_rfl

/-- Twenty insertions build two levels of inner nodes; the first update then goes down to the lower one, and
the last one stays at the upper one. -/
def wrapCalls : List (Mutation (Fin (2 ^ 64)) ℕ) :=
  (List.range 20).map (fun i => .insert (Fin.ofNat _ i) i) ++
    [.update 0 100, .update 1 200, .update 6 300, .update 0 1]

/-- Two messages for one key wait on its path. -/
theorem session_structure_deep :
    Runs (handler ⟨false, none, id, fun _ _ h => h⟩)
      (session ⟨3, 2, 3, 3, by decide, le_rfl, rfl⟩ (.basic (Fin (2 ^ 64)) ℕ) wrapCalls) (empty {}) fun _ w =>
      WellFormed ⟨3, 2, 3, 3, by decide, le_rfl, rfl⟩ w.mem w.header ∧ StampsDecrease w ∧
        (pathMessages w.mem 0 w.created w.header.rootID).map Upsert.timeStamp = [24, 21] := by
  have hrun : execHolds (handler ⟨false, none, id, fun _ _ h => h⟩) 5000
      (session ⟨3, 2, 3, 3, by decide, le_rfl, rfl⟩ (.basic (Fin (2 ^ 64)) ℕ) wrapCalls) (empty {}) (fun _ w =>
        (pathMessages w.mem 0 w.created w.header.rootID).map Upsert.timeStamp == [24, 21]) = true := by
    decide +kernel
  have hshape := session_structure (N := ⟨3, 2, 3, 3, by decide, le_rfl, rfl⟩) id (fun _ _ h => h)
    ⟨le_rfl, by decide, rfl, le_rfl, by decide⟩ (.basic (Fin (2 ^ 64)) ℕ) wrapCalls
  exact (hshape.det (runs_of_exec hrun)).mono fun _ w h => ⟨h.1.1, h.1.2 (by decide), eq_of_beq h.2⟩

/-- The last of 2⁶⁴ calls draws the time stamp 0, and its message waits above an older one of its key. -/
theorem session_stamps_wrap :
    (⟨3, 2, 3, 3, by decide, le_rfl, rfl⟩ : NodeSizes).Roomy ∧
    Runs (handler ⟨false, none, id, fun _ _ h => h⟩)
      (session ⟨3, 2, 3, 3, by decide, le_rfl, rfl⟩ (.basic (Fin (2 ^ 64)) ℕ)
        (List.replicate (2 ^ 64 - 24) (.erase 0) ++ wrapCalls)) (empty {})
      fun _ w => ¬ StampsDecrease w := by
  refine ⟨⟨le_rfl, by decide, rfl, le_rfl, by decide⟩, (session_erases rfl 0 ?_)⟩
  have hrun : execHolds (handler ⟨false, none, id, fun _ _ h => h⟩) 5000
      (calls ⟨3, 2, 3, 3, by decide, le_rfl, rfl⟩ (.basic (Fin (2 ^ 64)) ℕ) wrapCalls)
      (emptyTree (.basic _ _) id (2 ^ 64 - 24)) (fun _ w =>
        (pathMessages w.mem 0 w.created w.header.rootID).map Upsert.timeStamp == [0, 2 ^ 64 - 3]) = true := by
    decide +kernel
  refine (runs_of_exec hrun).mono fun _ w h hw => ?_
  have h0 : ((pathMessages w.mem 0 w.created w.header.rootID).map Upsert.timeStamp).Pairwise fun s t => t < s :=
    List.pairwise_map.mpr (hw 0)
  rw [eq_of_beq h] at h0
  exact absurd h0 (by decide)

end BEpsilon.BeTree
