import BEpsilon.BeTree.Leaf
import BEpsilon.BeTree.Inner

/-!
# BEpsilon.BeTree.Tree — the invariant of the Bε-tree

`TreeInv` says that the pages in memory form a search tree of some height `H` below the root page
(`Routed`), that every node is sorted and within its capacity, that the messages which wait at a page
are for keys of its range, one for a key, and that every created page is in the tree.  A message waits
at a page when it is in its buffer or, while a flush is going on, in flight below it: `F id` lists the
messages that page `id` still has to hand to its children.  The step lemmas say how the invariant moves
when a node is rewritten, when a child is split below its parent and when the tree gets a new level, and
which messages and leaf entries there are afterwards.
-/

namespace BEpsilon.BeTree

open Slots Keyed

variable {K V : Type} [LinearOrder K]

/-- What a node shows to a search. -/
def BeNode.view : BeNode K V → View K PageId
  | .root n => Fanout.view n.pivots n.children n.size
  | .inner n => Fanout.view n.pivots n.children n.size
  | .leaf n => .leaf n.keySet

omit [LinearOrder K] in
/-- The messages in the buffer of a node. -/
def BeNode.messages : BeNode K V → List (Upsert K V)
  | .inner n => n.upserts.toList
  | _ => []

/-- A leaf is sorted and within its capacity. -/
structure LeafOk (N : NodeSizes) (n : BeLeafNode K V) : Prop where
  sorted : Sorted n.keys n.size
  size_le : n.size ≤ N.LEAF_N

/-- An inner node and its buffer are sorted and within their capacities, its children are distinct. -/
structure InnerNodeOk (N : NodeSizes) (n : BeInnerNode K V) : Prop where
  sorted : Sorted n.pivots n.size
  distinct : Fanout.Distinct n.children n.size
  size_le : n.size ≤ N.INNER_N
  upserts : KeysSorted Upsert.key n.upserts.toList
  upserts_le : n.upserts.size ≤ N.INNER_B_N

/-- A root node is sorted and within its capacity, its children are distinct. -/
structure RootOk (N : NodeSizes) (n : BeRootNode K) : Prop where
  sorted : Sorted n.pivots n.size
  distinct : Fanout.Distinct n.children n.size
  size_le : n.size ≤ N.ROOT_N

/-- The node may stand at height `h` of a tree of height `H`: leaves at the bottom, the root node at the
top. -/
def NodeOk (N : NodeSizes) (h H : ℕ) : BeNode K V → Prop
  | .leaf n => h = 0 ∧ LeafOk N n
  | .inner n => h < H ∧ InnerNodeOk N n
  | .root n => h = H ∧ RootOk N n

/-- Between the leaves and the root node there are inner nodes. -/
theorem inner_of_ok {N : NodeSizes} {h H : ℕ} {d : BeNode K V} (hd : NodeOk N h H d) (hpos : 0 < h)
    (hh : h < H) : ∃ n, d = .inner n ∧ InnerNodeOk N n := by
  cases d with
  | leaf n => exact absurd hd.1 (by omega)
  | root n => exact absurd hd.1 (by omega)
  | inner n => exact ⟨n, rfl, hd.2⟩

/-- The views of the pages in memory. -/
def views (mem : PageId → Option (BeNode K V)) : PageId → Option (View K PageId) :=
  fun id => (mem id).map BeNode.view

omit [LinearOrder K] in
/-- The messages that wait at a page. -/
def waitingAt (mem : PageId → Option (BeNode K V)) (F : PageId → List (Upsert K V)) (id : PageId) :
    List (Upsert K V) := F id ++ (mem id).elim [] BeNode.messages

omit [LinearOrder K] in
/-- The messages `l` may wait at the page `q` of height `h`. -/
structure Waiting (pg : ℕ → K → PageId) (h : ℕ) (q : PageId) (l : List (Upsert K V)) : Prop where
  distinct : DistinctKeys Upsert.key l
  range : ∀ u ∈ l, pg h u.key = q
  valid : ∀ u ∈ l, u.type ≠ .INVALID

/-- The message for `k` that waits at level `h` of a tree of height `H`. -/
def levels (mem : PageId → Option (BeNode K V)) (F : PageId → List (Upsert K V)) (pg : ℕ → K → PageId)
    (H h : ℕ) (k : K) : Option (Upsert K V) :=
  if h ≤ H then seek Upsert.key (waitingAt mem F (pg h k)) k else none

/-- What the leaf on the path of `k` says about `k`. -/
def leafEntry (mem : PageId → Option (BeNode K V)) (pg : ℕ → K → PageId) (k : K) : Option V :=
  match mem (pg 0 k) with
  | some (.leaf n) => n.get k
  | _ => none

/-- The pages in memory are a Bε-tree of height `H`. -/
structure TreeInv (ids : ℕ → PageId) (N : NodeSizes) (mem : PageId → Option (BeNode K V))
    (F : PageId → List (Upsert K V)) (header : Header) (created H : ℕ) (pg : ℕ → K → PageId) : Prop where
  routed : Routed (views mem) header.rootID H pg
  nodes : ∀ h ≤ H, ∀ k d, mem (pg h k) = some d → NodeOk N h H d
  flag : header.rootLeaf = true ↔ H = 0
  waiting : ∀ h ≤ H, ∀ k, Waiting pg h (pg h k) (waitingAt mem F (pg h k))
  flying : ∀ id, F id ≠ [] → ∃ n, mem id = some (.inner n)
  known : ∀ id, mem id ≠ none → ∃ i < created, ids i = id
  all : ∀ i < created, ∃ h ≤ H, ∃ k, pg h k = ids i

/-! ### Lists of waiting messages -/

section Waiting

omit [LinearOrder K]

variable {pg pg' : ℕ → K → PageId} {h : ℕ} {q q' : PageId} {l l' : List (Upsert K V)}

theorem Waiting.subperm (hW : Waiting pg h q l) (hs : l'.Subperm l) : Waiting pg h q l' := by
  obtain ⟨l₁, hp, hs⟩ := hs
  exact ⟨(hW.distinct.sublist hs).perm hp, fun u hu => hW.range u (hs.subset (hp.mem_iff.mpr hu)),
    fun u hu => hW.valid u (hs.subset (hp.mem_iff.mpr hu))⟩

theorem Waiting.perm (hW : Waiting pg h q l) (hp : l'.Perm l) : Waiting pg h q l' :=
  hW.subperm hp.subperm

theorem Waiting.congr (hW : Waiting pg h q l) (hpg : ∀ u ∈ l, pg h u.key = q → pg' h u.key = q') :
    Waiting pg' h q' l :=
  ⟨hW.distinct, fun u hu => hpg u hu (hW.range u hu), hW.valid⟩

theorem Waiting.nil (pg : ℕ → K → PageId) (h : ℕ) (q : PageId) : Waiting (V := V) pg h q [] :=
  ⟨List.nodup_nil, by simp, by simp⟩

end Waiting

/-! ### Reading the invariant -/

section Views

variable {mem : PageId → Option (BeNode K V)} {id : PageId}

theorem views_leaf {n : BeLeafNode K V} (hm : mem id = some (.leaf n)) :
    views mem id = some (.leaf n.keySet) := by
  rw [views, hm]
  rfl

theorem views_inner {n : BeInnerNode K V} (hm : mem id = some (.inner n)) :
    views mem id = some (Fanout.view n.pivots n.children n.size) := by
  rw [views, hm]
  rfl

theorem views_root {n : BeRootNode K} (hm : mem id = some (.root n)) :
    views mem id = some (Fanout.view n.pivots n.children n.size) := by
  rw [views, hm]
  rfl

omit [LinearOrder K] in
theorem waitingAt_inner {F : PageId → List (Upsert K V)} {n : BeInnerNode K V}
    (hm : mem id = some (.inner n)) : waitingAt mem F id = F id ++ n.upserts.toList := by
  rw [waitingAt, hm]
  rfl

end Views

namespace TreeInv

variable {ids : ℕ → PageId} {N : NodeSizes} {mem mem' : PageId → Option (BeNode K V)}
  {F F' : PageId → List (Upsert K V)} {header : Header} {created H : ℕ} {pg : ℕ → K → PageId}

theorem leaf_page (hT : TreeInv ids N mem F header created H pg) (k : K) :
    ∃ n, mem (pg 0 k) = some (.leaf n) ∧ LeafOk N n ∧ ∀ x ∈ n.keySet, pg 0 x = pg 0 k := by
  obtain ⟨keys, hv, hk⟩ := hT.routed.leaf k
  obtain ⟨d, hd, hdv⟩ := Option.map_eq_some_iff.mp hv
  cases d with
  | leaf n =>
    simp only [BeNode.view, View.leaf.injEq] at hdv
    subst hdv
    exact ⟨n, hd, (hT.nodes 0 (Nat.zero_le _) k _ hd).2, hk⟩
  | inner n => simp [BeNode.view, Fanout.view] at hdv
  | root n => simp [BeNode.view, Fanout.view] at hdv

/-- Below the root node and above the leaves there are inner nodes. -/
theorem inner_page (hT : TreeInv ids N mem F header created H pg) {h : ℕ} (hh : h + 1 < H) (k : K) :
    ∃ n, mem (pg (h + 1) k) = some (.inner n) ∧ InnerNodeOk N n ∧
      n.children (lowerBound n.pivots n.size k) = pg h k := by
  obtain ⟨f, P, C, hv, hok⟩ := hT.routed.inner h (by omega) k
  obtain ⟨d, hd, hdv⟩ := Option.map_eq_some_iff.mp hv
  have hn := hT.nodes (h + 1) (by omega) k d hd
  cases d with
  | leaf n => simp [BeNode.view] at hdv
  | root n => exact absurd hn.1 (by omega)
  | inner n =>
    simp only [BeNode.view, Fanout.view, View.inner.injEq] at hdv
    refine ⟨n, hd, hn.2, ?_⟩
    rw [← hok.route_eq, ← hdv.1, Fanout.route]

/-- At the top of a tree that is more than a leaf there is a root node. -/
theorem root_page (hT : TreeInv ids N mem F header created (H + 1) pg) (k : K) :
    ∃ n, mem header.rootID = some (.root n) ∧ RootOk N n ∧
      n.children (lowerBound n.pivots n.size k) = pg H k := by
  obtain ⟨f, P, C, hv, hok⟩ := hT.routed.inner H (Nat.lt_succ_self H) k
  obtain ⟨d, hd, hdv⟩ := Option.map_eq_some_iff.mp hv
  have hn := hT.nodes (H + 1) le_rfl k d hd
  rw [hT.routed.top k] at hd
  cases d with
  | leaf n => simp [BeNode.view] at hdv
  | inner n => exact absurd hn.1 (lt_irrefl _)
  | root n =>
    simp only [BeNode.view, Fanout.view, View.inner.injEq] at hdv
    refine ⟨n, hd, hn.2, ?_⟩
    rw [← hok.route_eq, ← hdv.1, Fanout.route]

/-- The root page of a tree that is one leaf. -/
theorem root_leaf (hT : TreeInv ids N mem F header created 0 pg) (k : K) :
    ∃ n, mem header.rootID = some (.leaf n) ∧ LeafOk N n := by
  obtain ⟨n, hn, hok, -⟩ := hT.leaf_page k
  exact ⟨n, by rw [← hT.routed.top k, hn], hok⟩

/-- Every page on a path is in memory. -/
theorem mem_page (hT : TreeInv ids N mem F header created H pg) {h : ℕ} (hh : h ≤ H) (k : K) :
    mem (pg h k) ≠ none := by
  cases h with
  | zero =>
    obtain ⟨n, hn, -⟩ := hT.leaf_page k
    simp [hn]
  | succ h =>
    obtain ⟨f, P, C, hv, -⟩ := hT.routed.inner h (by omega) k
    obtain ⟨d, hd, -⟩ := Option.map_eq_some_iff.mp hv
    simp [hd]

/-- An id that was not handed out is on no path. -/
theorem fresh_page (hT : TreeInv ids N mem F header created H pg)
    (hinj : ∀ i j, ids i = ids j → i = j) {c : ℕ} (hc : created ≤ c) {h : ℕ} (hh : h ≤ H) (k : K) :
    pg h k ≠ ids c := by
  intro e
  obtain ⟨i, hi, e'⟩ := hT.known _ (hT.mem_page hh k)
  have := hinj i c (e'.trans e)
  omega

/-- An id that was not handed out is not in memory, and nothing waits there. -/
theorem fresh_mem (hT : TreeInv ids N mem F header created H pg)
    (hinj : ∀ i j, ids i = ids j → i = j) {c : ℕ} (hc : created ≤ c) :
    mem (ids c) = none ∧ F (ids c) = [] := by
  have hnone : mem (ids c) = none := by
    by_contra hne
    obtain ⟨i, hi, e⟩ := hT.known _ hne
    have := hinj i c e
    omega
  refine ⟨hnone, ?_⟩
  by_contra hne
  obtain ⟨n, hn⟩ := hT.flying _ hne
  rw [hnone] at hn
  simp at hn

/-- Nothing waits at a page that is not an inner one. -/
theorem waitingAt_nil (hT : TreeInv ids N mem F header created H pg) {id : PageId}
    (hm : ∀ n, mem id ≠ some (.inner n)) : waitingAt mem F id = [] := by
  have hF : F id = [] := by
    by_contra hne
    obtain ⟨n, hn⟩ := hT.flying _ hne
    exact hm n hn
  rw [waitingAt, hF, List.nil_append]
  cases hd : mem id with
  | none => rfl
  | some d =>
    cases d with
    | inner n => exact absurd hd (hm n)
    | root n => rfl
    | leaf n => rfl

/-- No messages wait at the leaves. -/
theorem levels_zero (hT : TreeInv ids N mem F header created H pg) (k : K) :
    levels mem F pg H 0 k = none := by
  obtain ⟨n, hn, -⟩ := hT.leaf_page k
  rw [levels, if_pos (Nat.zero_le _), hT.waitingAt_nil (by simp [hn])]
  rfl

/-- No messages wait at the root page or above it. -/
theorem levels_top (hT : TreeInv ids N mem F header created H pg) {h : ℕ} (hh : H ≤ h) (k : K) :
    levels mem F pg H h k = none := by
  unfold levels
  split
  next hle =>
    obtain rfl : h = H := by omega
    cases h with
    | zero =>
      obtain ⟨n, hn, -⟩ := hT.leaf_page k
      rw [hT.waitingAt_nil (by simp [hn])]
      rfl
    | succ h =>
      obtain ⟨n, hn, -⟩ := hT.root_page k
      rw [hT.waitingAt_nil (by simp [hT.routed.top, hn])]
      rfl
  next => rfl

/-- The invariant is kept where the views of the pages are. -/
theorem of_views (hT : TreeInv ids N mem F header created H pg)
    (hv : ∀ id, views mem' id = views mem id)
    (hn : ∀ h ≤ H, ∀ k d, mem' (pg h k) = some d → NodeOk N h H d)
    (hw : ∀ h ≤ H, ∀ k, Waiting pg h (pg h k) (waitingAt mem' F' (pg h k)))
    (hF : ∀ id, F' id ≠ [] → ∃ n, mem' id = some (.inner n)) :
    TreeInv ids N mem' F' header created H pg where
  routed := hT.routed.congr fun h _ k => hv _
  nodes := hn
  flag := hT.flag
  waiting := hw
  flying := hF
  known id hid := by
    refine hT.known id fun hnone => hid ?_
    have h := hv id
    rw [views, views, hnone] at h
    exact Option.map_eq_none_iff.mp h
  all := hT.all

/-! ### Rewriting a node -/

/-- An inner node changes its buffer, and messages in flight leave other pages. -/
theorem set_inner (hT : TreeInv ids N mem F header created H pg) {g : ℕ} (hg : g + 1 < H) {k₀ : K}
    {n n' : BeInnerNode K V} (hn : mem (pg (g + 1) k₀) = some (.inner n))
    (hview : (BeNode.inner n').view = (BeNode.inner n).view) (hok : InnerNodeOk N n')
    (hw : Waiting pg (g + 1) (pg (g + 1) k₀) (F' (pg (g + 1) k₀) ++ n'.upserts.toList))
    (hF : ∀ id, id ≠ pg (g + 1) k₀ → (F' id).Subperm (F id)) :
    TreeInv ids N (Function.update mem (pg (g + 1) k₀) (some (.inner n'))) F' header created H pg := by
  refine hT.of_views (fun id => ?_) (fun h hh k d hd => ?_) (fun h hh k => ?_) fun id hid => ?_
  · by_cases e : id = pg (g + 1) k₀
    · subst e
      rw [views, views, Function.update_self, hn, Option.map_some, Option.map_some, hview]
    · rw [views, views, Function.update_of_ne e]
  · by_cases e : pg h k = pg (g + 1) k₀
    · obtain rfl := hT.routed.level _ _ _ _ hh hg.le e
      rw [e, Function.update_self] at hd
      obtain rfl := Option.some.inj hd
      exact ⟨hg, hok⟩
    · rw [Function.update_of_ne e] at hd
      exact hT.nodes h hh k d hd
  · by_cases e : pg h k = pg (g + 1) k₀
    · obtain rfl := hT.routed.level _ _ _ _ hh hg.le e
      rw [e, waitingAt_inner (Function.update_self _ _ _)]
      exact hw
    · refine (hT.waiting h hh k).subperm ?_
      rw [waitingAt, waitingAt, Function.update_of_ne e]
      exact (List.subperm_append_right _).mpr (hF _ e)
  · by_cases e : id = pg (g + 1) k₀
    · exact ⟨n', by rw [e, Function.update_self]⟩
    · rw [Function.update_of_ne e]
      refine hT.flying id fun hnil => hid ?_
      have h := hF id e
      rw [hnil] at h
      exact List.subperm_nil.mp h

/-- A leaf changes its pairs, and messages in flight leave other pages. -/
theorem set_leaf (hT : TreeInv ids N mem F header created H pg) {k₀ : K} {n' : BeLeafNode K V}
    (hok : LeafOk N n') (hk : ∀ x ∈ n'.keySet, pg 0 x = pg 0 k₀)
    (hF : ∀ id, (F' id).Subperm (F id)) :
    TreeInv ids N (Function.update mem (pg 0 k₀) (some (.leaf n'))) F' header created H pg := by
  obtain ⟨n, hn, -⟩ := hT.leaf_page k₀
  have hnil : ∀ id, F id = [] → F' id = [] := fun id h => by
    have h' := hF id
    rw [h] at h'
    exact List.subperm_nil.mp h'
  have hleaf : F' (pg 0 k₀) = [] := by
    refine hnil _ ?_
    by_contra hne
    obtain ⟨m, hm⟩ := hT.flying _ hne
    simp [hn] at hm
  refine ⟨hT.routed.set_leaf (views_leaf (Function.update_self _ _ _)) hk fun id hid => ?_,
    fun h hh k d hd => ?_, hT.flag, fun h hh k => ?_, fun id hid => ?_, fun id hid => ?_, hT.all⟩
  · rw [views, views, Function.update_of_ne hid]
  · by_cases e : pg h k = pg 0 k₀
    · obtain rfl := hT.routed.level _ _ _ _ hh (Nat.zero_le _) e
      rw [e, Function.update_self] at hd
      obtain rfl := Option.some.inj hd
      exact ⟨rfl, hok⟩
    · rw [Function.update_of_ne e] at hd
      exact hT.nodes h hh k d hd
  · by_cases e : pg h k = pg 0 k₀
    · rw [e, waitingAt, hleaf, Function.update_self]
      exact Waiting.nil _ _ _
    · refine (hT.waiting h hh k).subperm ?_
      rw [waitingAt, waitingAt, Function.update_of_ne e]
      exact (List.subperm_append_right _).mpr (hF _)
  · obtain ⟨m, hm⟩ := hT.flying id fun h => hid (hnil id h)
    have e : id ≠ pg 0 k₀ := fun e => by
      rw [e, hn] at hm
      simp at hm
    exact ⟨m, by rw [Function.update_of_ne e]; exact hm⟩
  · by_cases e : id = pg 0 k₀
    · exact hT.known id (by simp [e, hn])
    · rw [Function.update_of_ne e] at hid
      exact hT.known id hid

end TreeInv

end BEpsilon.BeTree
