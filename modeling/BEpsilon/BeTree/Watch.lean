import BEpsilon.BeTree.Paths

/-!
# BEpsilon.BeTree.Watch — the INSERTs of a flush and the leaves they go to

Before a new pair is put into a leaf, an assert looks at a slot that may lie past the end.  A flush is watched
for it: the keys that INSERTs carry belong to a set fixed before, and the leaves of these keys are vacant until
the flush comes to them.
-/

namespace BEpsilon.BeTree

open Slots Keyed

/-- What a flush is watched for: whether it is at all, the keys that an INSERT may carry, and the memory of the
pages in the order in which they are made. -/
structure Watch (K V : Type) where
  on : Prop
  keys : Set K
  memory : ℕ → Leftover K V

namespace Watch

variable {K V : Type} {W : Watch K V}

/-- A flush is watched where asserts are compiled in, for the memory that its pages get. -/
structure Of (W : Watch K V) (R : PageRules) (O : Unspecified K V) : Prop where
  on : R.asserts = true → W.on
  memory : ∀ i, W.memory i = O.memory (R.ids i)

/-- The INSERTs carry keys that they may carry. -/
def Admits (W : Watch K V) (us : List (Upsert K V)) : Prop := ∀ u ∈ us, u.type = .INSERT → u.key ∈ W.keys

theorem Admits.mono {us vs : List (Upsert K V)} (h : W.Admits us) (hs : ∀ u ∈ vs, u ∈ us) : W.Admits vs :=
  fun u hu => h u (hs u hu)

variable [LinearOrder K] {N : NodeSizes} {mem mem' : PageId → Option (BeNode K V)}
  {F F' : PageId → List (Upsert K V)} {created created' : ℕ} {pg pg' : ℕ → K → PageId} {k : K}

theorem Admits.merge [Add V] {as bs : List (Upsert K V)} (ha : W.Admits as) (hb : W.Admits bs) :
    W.Admits (mergeUpserts as bs) := by
  intro u hu hi
  obtain ⟨x, hx, hkey, hxi⟩ := mergeUpserts_insert hu hi
  rw [← hkey]
  rcases hx with hx | hx
  · exact ha x hx hxi
  · exact hb x hx hxi

omit [LinearOrder K] in
/-- The messages of all pages are admitted. -/
def Waits (W : Watch K V) (mem : PageId → Option (BeNode K V)) (F : PageId → List (Upsert K V)) : Prop :=
  ∀ id, W.Admits (waitingAt mem F id)

/-- The leaf of the key is vacant, if an INSERT may carry the key. -/
def Open (W : Watch K V) (N : NodeSizes) (mem : PageId → Option (BeNode K V)) (created : ℕ) (pg : ℕ → K → PageId)
    (k : K) : Prop :=
  W.on → k ∈ W.keys → ∀ t, mem (pg 0 k) = some (.leaf t) → t.Vacant N W.memory created k

theorem Open.congr (h : W.Open N mem created pg k) (hm : mem' (pg' 0 k) = mem (pg 0 k)) (hc : created ≤ created') :
    W.Open N mem' created' pg' k := by
  intro hon hk t ht
  obtain ⟨hslots, hmemory⟩ := h hon hk t (hm ▸ ht)
  exact ⟨hslots, fun h₂ hlast i hi => hmemory h₂ hlast i (hc.trans hi)⟩

omit [LinearOrder K] in
/-- Every message of a page was one of some page before. -/
theorem Waits.mono (h : W.Waits mem F) (hs : ∀ id, ∀ u ∈ waitingAt mem' F' id, ∃ id', u ∈ waitingAt mem F id') :
    W.Waits mem' F' := by
  intro id u hu
  obtain ⟨id', hu'⟩ := hs id u hu
  exact h id' u hu'

/-- A split brings no message in. -/
theorem Waits.split {ids : ℕ → PageId} {H h : ℕ} {k₀ mid : K} (hW : W.Waits mem F)
    (hS : NodeSplit ids N mem mem' F F' created H pg h k₀ mid) : W.Waits mem' F' := by
  refine hW.mono fun id u hu => ?_
  by_cases hq : id = pg h k₀
  · subst hq
    exact ⟨_, hS.perm.mem_iff.mp (List.mem_append_left _ hu)⟩
  by_cases hr : id = ids created
  · subst hr
    exact ⟨_, hS.perm.mem_iff.mp (List.mem_append_right _ hu)⟩
  · exact ⟨id, by rwa [← hS.waitingAt_other hq hr]⟩

omit [LinearOrder K] in
/-- The page `q` gets other messages, and no page has more in flight. -/
theorem Waits.update {q : PageId} {n' : BeInnerNode K V} (hW : W.Waits mem F)
    (hq : W.Admits (F' q ++ n'.upserts.toList)) (hF : ∀ id, id ≠ q → ∀ u ∈ F' id, u ∈ F id) :
    W.Waits (Function.update mem q (some (.inner n'))) F' := by
  intro id
  by_cases e : id = q
  · subst e
    rwa [waitingAt_inner (Function.update_self _ _ _)]
  · refine (hW id).mono fun u hu => ?_
    rw [waitingAt, Function.update_of_ne e] at hu
    rcases List.mem_append.mp hu with hu | hu
    · exact List.mem_append_left _ (hF id e u hu)
    · exact List.mem_append_right _ hu

omit [LinearOrder K] in
/-- A leaf is written, and no page has more in flight. -/
theorem Waits.leaf {p : PageId} {t : BeLeafNode K V} (hW : W.Waits mem F) (hF : ∀ id, ∀ u ∈ F' id, u ∈ F id) :
    W.Waits (Function.update mem p (some (.leaf t))) F' := by
  intro id
  refine (hW id).mono fun u hu => ?_
  rcases List.mem_append.mp hu with hu | hu
  · exact List.mem_append_left _ (hF id u hu)
  · by_cases e : id = p
    · subst e
      rw [Function.update_self] at hu
      cases hu
    · rw [Function.update_of_ne e] at hu
      exact List.mem_append_right _ hu

/-! ### The watch of one flush -/

/-- The leaves are vacant for the INSERTs among `us` and among the messages in the tree, as far as the paths of
their keys have `page` at level `h`. -/
def VacantBelow (N : NodeSizes) (memory : ℕ → Leftover K V) (mem : PageId → Option (BeNode K V)) (created : ℕ)
    (pg : ℕ → K → PageId) (h : ℕ) (page : PageId) (us : List (Upsert K V)) : Prop :=
  ∀ x, (x ∈ us ∨ ∃ id, x ∈ waitingAt mem noFlight id) → x.type = .INSERT → pg h x.key = page →
    ∀ t, mem (pg 0 x.key) = some (.leaf t) → t.Vacant N memory created x.key

/-- A flush that starts at `page` may bring in the keys whose leaves are vacant. -/
def below (on : Prop) (N : NodeSizes) (memory : ℕ → Leftover K V) (mem : PageId → Option (BeNode K V)) (created : ℕ)
    (pg : ℕ → K → PageId) (h : ℕ) (page : PageId) : Watch K V where
  on := on
  keys := {k | on → pg h k = page → ∀ t, mem (pg 0 k) = some (.leaf t) → t.Vacant N memory created k}
  memory := memory

variable {on : Prop} {memory : ℕ → Leftover K V} {h : ℕ} {page : PageId} {us : List (Upsert K V)}

theorem below_admits (hv : on → VacantBelow N memory mem created pg h page us) :
    (below on N memory mem created pg h page).Admits us :=
  fun x hx hi hon hk => hv hon x (.inl hx) hi hk

theorem below_waits (hv : on → VacantBelow N memory mem created pg h page us) :
    (below on N memory mem created pg h page).Waits mem noFlight :=
  fun id x hx hi hon hk => hv hon x (.inr ⟨id, hx⟩) hi hk

theorem below_open (hk : pg h k = page) : (below on N memory mem created pg h page).Open N mem created pg k :=
  fun hon hkey => hkey hon hk

end Watch

/-! ### The calls that flush -/

/-- The message `u` comes into the tree without a flush, or the leaves below the node that is flushed are vacant for
the INSERTs that the flush can bring: on the paths that go through this node, for `u` and for those that wait. -/
def Calm {K V : Type} [LinearOrder K] (N : NodeSizes) (memory : ℕ → Leftover K V)
    (mem : PageId → Option (BeNode K V)) (created : ℕ) (rootPage : PageId) (u : Upsert K V) : Prop :=
  ∀ root n, mem rootPage = some (.root root) → root.size < N.ROOT_N →
    mem (root.children (lowerBound root.pivots root.size u.key)) = some (.inner n) →
    N.INNER_B_N ≤ n.upserts.size → (∀ x ∈ n.upserts.toList, x.key ≠ u.key) →
    ∀ x, (x = u ∨ x ∈ pathMessages mem x.key created rootPage) → x.type = .INSERT →
      root.children (lowerBound root.pivots root.size x.key) =
        root.children (lowerBound root.pivots root.size u.key) →
      ∀ t, pathLeaf mem x.key created rootPage = some t → t.Vacant N memory created x.key

variable {K V : Type} [LinearOrder K] {ids : ℕ → PageId} {N : NodeSizes} {memory : ℕ → Leftover K V}
  {mem : PageId → Option (BeNode K V)} {header : Header} {created H : ℕ} {pg : ℕ → K → PageId} {u : Upsert K V}
  {root : BeRootNode K} {n : BeInnerNode K V}

/-- What a flush below the root node is watched for. -/
theorem Calm.vacantBelow (hc : Calm N memory mem created header.rootID u)
    (hT : TreeInv ids N mem noFlight header created (H + 1) pg) (hr : mem header.rootID = some (.root root))
    (hroom : root.size < N.ROOT_N) (hn : mem (pg H u.key) = some (.inner n)) (hfull : N.INNER_B_N ≤ n.upserts.size)
    (hmiss : ∀ x ∈ n.upserts.toList, x.key ≠ u.key) :
    Watch.VacantBelow N memory mem created pg H (pg H u.key) [u] := by
  have hchild : ∀ k, root.children (lowerBound root.pivots root.size k) = pg H k := fun k => by
    obtain ⟨root', hr', -, h⟩ := hT.root_page k
    obtain rfl : root' = root := by simpa using hr'.symm.trans hr
    exact h
  intro x hx hi hpage t ht
  refine hc root n hr hroom (by rw [hchild, hn]) hfull hmiss x ?_ hi (by rw [hchild, hchild, hpage]) t ?_
  · exact hx.imp List.mem_singleton.mp fun ⟨id, h⟩ => hT.waiting_mem_path h
  · rw [← hT.routed.top x.key]
    exact hT.pathLeaf_eq le_rfl (hT.height_lt x.key) ht

end BEpsilon.BeTree
