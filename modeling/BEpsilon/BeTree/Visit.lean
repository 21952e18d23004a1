import BEpsilon.BeTree.Watch

/-!
# BEpsilon.BeTree.Visit — an inner node that hands its messages to its children

A flush works through a queue of inner nodes, each with the messages that its children are to get.  While
the children of one node are visited, the pivots of those that are split are collected and given to the
node at the end; the tree of the proofs has them at once, in a node `vn` that stands for the one in
memory.  `Visiting` is the state of the loop, and each lemma one way to deal with a child.
-/

namespace BEpsilon.BeTree

open Slots Keyed

variable {K V : Type} [LinearOrder K]

/-- No path visits both pages. -/
def Apart (pg : ℕ → K → PageId) (H : ℕ) (a b : PageId) : Prop :=
  ∀ k g g', g ≤ H → g' ≤ H → pg g k = a → pg g' k ≠ b

/-- A page of the queue, at height `g + 1`, with the messages for its children. -/
structure Entry (N : NodeSizes) (mem : PageId → Option (BeNode K V)) (F : PageId → List (Upsert K V))
    (H : ℕ) (pg : ℕ → K → PageId) (g : ℕ) (e : PageId × MessageMap K V) : Prop where
  lt : g + 1 < H
  page : ∃ k, pg (g + 1) k = e.1
  node : ∃ n, mem e.1 = some (.inner n) ∧ MapOk N n.pivots n.size e.2 ∧
    n.size + e.2.length ≤ N.INNER_N
  nonempty : e.2 ≠ []
  flight : (F e.1).Perm e.2.messages

variable {pg : ℕ → K → PageId} {H h : ℕ} {a b q r : PageId} {mid : K}

theorem splitPg_eq_old {g : ℕ} {k : K} (ha : a ≠ r) (e : Routed.splitPg pg h q r mid g k = a) :
    pg g k = a := by
  unfold Routed.splitPg at e
  split at e
  · exact absurd e.symm ha
  · exact e

theorem splitPg_of_ne_page {g : ℕ} {k : K} (hk : pg g k ≠ q) :
    Routed.splitPg pg h q r mid g k = pg g k := by
  by_cases e : g = h
  · subst e
    exact Routed.splitPg_of_page_ne hk g
  · exact Routed.splitPg_of_ne e k

/-- Pages other than the fresh one stay apart. -/
theorem Apart.split (hab : Apart pg H a b) (ha : a ≠ r) (hb : b ≠ r) :
    Apart (Routed.splitPg pg h q r mid) H a b :=
  fun k g g' hg hg' e e' => hab k g g' hg hg' (splitPg_eq_old ha e) (splitPg_eq_old hb e')

theorem Entry.congr {N : NodeSizes} {mem mem' : PageId → Option (BeNode K V)}
    {F F' : PageId → List (Upsert K V)} {pg' : ℕ → K → PageId} {g : ℕ} {e : PageId × MessageMap K V}
    (he : Entry N mem F H pg g e) (hm : mem' e.1 = mem e.1) (hF : F' e.1 = F e.1)
    (hp : ∃ k, pg' (g + 1) k = e.1) : Entry N mem' F' H pg' g e :=
  ⟨he.lt, hp, by rw [hm]; exact he.node, he.nonempty, by rw [hF]; exact he.flight⟩

/-- Every page of a queue is one of the tree. -/
theorem exists_entry {N : NodeSizes} {mem : PageId → Option (BeNode K V)} {F : PageId → List (Upsert K V)}
    {hs : List ℕ} {l : List (PageId × MessageMap K V)} (hl : List.Forall₂ (Entry N mem F H pg) hs l)
    {e : PageId × MessageMap K V} (he : e ∈ l) : ∃ g ∈ hs, Entry N mem F H pg g e := by
  induction hl with
  | nil => simp at he
  | cons hE _ ih =>
    rcases List.mem_cons.mp he with rfl | he
    · exact ⟨_, List.mem_cons_self, hE⟩
    · obtain ⟨g, hg, hE⟩ := ih he
      exact ⟨g, List.mem_cons_of_mem _ hg, hE⟩

theorem entries_imp {N : NodeSizes} {mem mem' : PageId → Option (BeNode K V)}
    {F F' : PageId → List (Upsert K V)} {pg' : ℕ → K → PageId} {hs : List ℕ}
    {l : List (PageId × MessageMap K V)} (hl : List.Forall₂ (Entry N mem F H pg) hs l)
    (himp : ∀ g, ∀ e ∈ l, Entry N mem F H pg g e → Entry N mem' F' H pg' g e) :
    List.Forall₂ (Entry N mem' F' H pg') hs l := by
  induction hl with
  | nil => exact .nil
  | cons hE _ ih =>
    exact .cons (himp _ _ List.mem_cons_self hE) (ih fun g e he => himp g e (List.mem_cons_of_mem _ he))

theorem entries_replicate {N : NodeSizes} {mem : PageId → Option (BeNode K V)}
    {F : PageId → List (Upsert K V)} {g : ℕ} {l : List (PageId × MessageMap K V)}
    (hl : ∀ e ∈ l, Entry N mem F H pg g e) :
    List.Forall₂ (Entry N mem F H pg) (List.replicate l.length g) l := by
  induction l with
  | nil => exact .nil
  | cons e l ih =>
    exact .cons (hl e List.mem_cons_self) (ih fun e he => hl e (List.mem_cons_of_mem _ he))

omit [LinearOrder K] in
/-- Pages of one height are apart. -/
theorem apart_of_level {view : PageId → Option (View K PageId)} {root : PageId}
    (hR : Routed view root H pg) {g : ℕ} (hg : g ≤ H) (ha : ∃ k, pg g k = a) (hb : ∃ k, pg g k = b)
    (hne : a ≠ b) : Apart pg H a b := by
  obtain ⟨ka, ha⟩ := ha
  obtain ⟨kb, hb⟩ := hb
  intro k x y hx hy hka hkb
  obtain rfl := hR.level x g k ka hx hg (hka.trans ha.symm)
  obtain rfl := hR.level y x k kb hy hg (hkb.trans hb.symm)
  exact hne (hka.symm.trans hkb)

/-- The node after it has learnt the pivot `mid` of the child that `k₀` goes to and the page right of
it. -/
def BeInnerNode.learn (n : BeInnerNode K V) (k₀ mid : K) (r : PageId) : BeInnerNode K V :=
  { n with
    pivots := insertAt n.pivots n.size (lowerBound n.pivots n.size k₀) mid
    children := insertAt n.children (n.size + 1) (lowerBound n.pivots n.size k₀ + 1) r
    size := n.size + 1 }

variable [Add V]

/-- The children of the inner node `n` on page `c`, at height `g + 1`, are visited.  The messages `rest`
have still to be handed on, the messages `lm` wait for the leaves that were visited, and the pages `kids`
are held.  The other pages of the queue are `old`, of heights `hs`. -/
structure Visiting (W : Watch K V) (ids : ℕ → PageId) (N : NodeSizes) (A : Prop) (T : K → ℕ) (C : K → Option V) (H : ℕ)
    (c : PageId) (g : ℕ) (n : BeInnerNode K V) (hs : List ℕ) (old : List (PageId × MessageMap K V))
    (newPivots : List (ℕ × K × PageId)) (rest : MessageMap K V) (lm : List (Upsert K V))
    (kids : List PageId) (mem : PageId → Option (BeNode K V)) (F : PageId → List (Upsert K V))
    (header : Header) (created : ℕ) (pg : ℕ → K → PageId) (vn : BeInnerNode K V) : Prop where
  keeps : Keeps ids N A T C (Function.update mem c (some (.inner vn))) F header created H pg
  lt : g + 1 < H
  ok : InnerNodeOk N n
  cur : mem c = some (.inner n)
  page : ∃ k, pg (g + 1) k = c
  grown : Fanout.Grown n.pivots n.children n.size newPivots vn.pivots vn.children vn.size
  upserts : vn.upserts = n.upserts
  room : vn.size + rest.length ≤ N.INNER_N
  map : MapOk N n.pivots n.size rest
  unseen : ∀ e ∈ rest, ∀ t ∈ newPivots, t.1 ≠ e.1
  pivots : ∀ t ∈ newPivots, NewPivot n.pivots n.size t
  indices : (newPivots.map Prod.fst).Nodup
  rights : (newPivots.map fun t => t.2.2).Nodup
  fresh : ∀ t ∈ newPivots, t.2.2 ∉ Fanout.childSet n.children n.size
  flight : (F c).Perm (rest.messages ++ lm)
  flying : ∀ id, F id ≠ [] → id = c ∨ id ∈ kids ∨ ∃ e ∈ old, e.1 = id
  entries : List.Forall₂ (Entry N mem F H pg) hs old
  apart : old.Pairwise fun a b => Apart pg H a.1 b.1
  away : ∀ e ∈ old, Apart pg H c e.1
  kid : ∀ z ∈ kids, ∃ k, pg g k = z ∧ pg (g + 1) k = c
  nodup : kids.Nodup
  free : ∀ z ∈ kids, ∀ e ∈ rest, ∀ u ∈ e.2, pg g u.key ≠ z
  waits : W.Waits (Function.update mem c (some (.inner vn))) F
  /-- Leaves are visited one after the other, inner nodes hand their leaves on. -/
  open_below : ∀ k, pg (g + 1) k = c → (g = 0 → ∃ e ∈ rest, lowerBound n.pivots n.size k = e.1) →
    W.Open N mem created pg k
  open_old : ∀ e ∈ old, ∀ k, ∀ h ≤ H, pg h k = e.1 → W.Open N mem created pg k

namespace Visiting

variable {W : Watch K V} {ids : ℕ → PageId} {N : NodeSizes} {A : Prop} {T : K → ℕ} {C : K → Option V} {c : PageId}
  {g : ℕ} {n vn : BeInnerNode K V} {hs : List ℕ} {old : List (PageId × MessageMap K V)}
  {newPivots : List (ℕ × K × PageId)} {rest : MessageMap K V} {lm : List (Upsert K V)}
  {kids : List PageId} {mem mem' : PageId → Option (BeNode K V)} {F F' : PageId → List (Upsert K V)}
  {header : Header} {created : ℕ}

section Facts

variable (hV : Visiting W ids N A T C H c g n hs old newPivots rest lm kids mem F header created pg vn)
include hV

theorem inv : TreeInv ids N (Function.update mem c (some (.inner vn))) F header created H pg :=
  hV.keeps.inv

/-- How the pages below `c` are routed to. -/
theorem route {k : K} (hk : pg (g + 1) k = c) : Fanout.route vn.pivots vn.children vn.size k = pg g k := by
  have hlt := hV.lt
  have hview : views (Function.update mem c (some (.inner vn))) (pg (g + 1) k) =
      some (Fanout.view vn.pivots vn.children vn.size) := by
    rw [hk]
    exact views_inner (Function.update_self _ _ _)
  exact (Fanout.inner_facts hV.inv.routed (by omega) hview).1 k rfl

theorem mem_childSet {z : PageId} (hz : z ∈ Fanout.childSet vn.children vn.size) :
    ∃ k, pg g k = z ∧ pg (g + 1) k = c := by
  obtain ⟨k, hk⟩ := hV.page
  have hlt := hV.lt
  have hview : views (Function.update mem c (some (.inner vn))) (pg (g + 1) k) =
      some (Fanout.view vn.pivots vn.children vn.size) := by
    rw [hk]
    exact views_inner (Function.update_self _ _ _)
  obtain ⟨x, hx, e⟩ := ((Fanout.inner_facts hV.inv.routed (by omega) hview).2.2 z).mp hz
  exact ⟨x, hx, e.trans hk⟩

/-- Where the messages that are left go to. -/
theorem target {e : ℕ × List (Upsert K V)} (he : e ∈ rest) {u : Upsert K V} (hu : u ∈ e.2) :
    lowerBound n.pivots n.size u.key = e.1 ∧ pg (g + 1) u.key = c ∧ pg g u.key = n.children e.1 := by
  have hidx := (hV.map.vectors e he).2.2.2 u hu
  have hlt := hV.lt
  have hc : pg (g + 1) u.key = c := by
    obtain ⟨k, hk⟩ := hV.page
    have hmem : u ∈ waitingAt (Function.update mem c (some (.inner vn))) F (pg (g + 1) k) := by
      rw [hk]
      refine List.mem_append_left _ (hV.flight.mem_iff.mpr (List.mem_append_left _ ?_))
      exact List.mem_flatMap.mpr ⟨e, he, hu⟩
    rw [(hV.inv.waiting (g + 1) (by omega) k).range u hmem, hk]
  refine ⟨hidx, hc, ?_⟩
  rw [← hV.route hc, hV.grown.route_old u.key fun t ht h => absurd (h.symm.trans hidx) (hV.unseen e he t ht),
    Fanout.route, hidx]

/-- The keys of a child that has not been split. -/
theorem index {k k' : K} (hk : pg (g + 1) k = c) (hnew : ∀ t ∈ newPivots, t.1 ≠ lowerBound n.pivots n.size k)
    (e : pg g k' = pg g k) : lowerBound n.pivots n.size k' = lowerBound n.pivots n.size k := by
  have hlt := hV.lt
  have hk' : pg (g + 1) k' = c := (hV.inv.routed.parent g (by omega) _ _ e).trans hk
  refine (hV.grown.index_iff hV.ok.distinct hV.fresh hnew rfl k').mp ?_
  rw [← Fanout.route_eq_iff hV.grown.distinct, hV.route hk', hV.route hk, e]

/-- The page of a child is not held yet. -/
theorem child_free {e : ℕ × List (Upsert K V)} (he : e ∈ rest) :
    n.children e.1 ∉ c :: (old.map Prod.fst ++ kids) := by
  obtain ⟨u, hu⟩ := List.exists_mem_of_ne_nil _ (hV.map.vectors e he).1
  obtain ⟨-, hc, hq⟩ := hV.target he hu
  have hlt := hV.lt
  rw [← hq]
  intro hm
  rcases List.mem_cons.mp hm with hm | hm
  · exact hV.inv.routed.page_ne (by omega) (by omega) (by omega) (hm.trans hc.symm)
  rcases List.mem_append.mp hm with hm | hm
  · obtain ⟨y, hy, e'⟩ := List.mem_map.mp hm
    exact hV.away y hy u.key (g + 1) g (by omega) (by omega) hc e'.symm
  · exact hV.free _ hm e he u hu rfl

/-- The other pages of the queue are neither the page nor one of its children. -/
theorem old_ne {e : PageId × MessageMap K V} (he : e ∈ old) {k : K} (hk : pg (g + 1) k = c) :
    e.1 ≠ c ∧ e.1 ≠ pg g k := by
  have hlt := hV.lt
  exact ⟨fun h => hV.away e he k (g + 1) (g + 1) (by omega) (by omega) hk (hk.trans h.symm),
    fun h => hV.away e he k (g + 1) g (by omega) (by omega) hk h.symm⟩

/-- Held pages without messages in flight may be given up. -/
theorem drop {kids' : List PageId} (hsub : kids'.Sublist kids) (hF : ∀ z ∈ kids, z ∉ kids' → F z = []) :
    Visiting W ids N A T C H c g n hs old newPivots rest lm kids' mem F header created pg vn :=
  { hV with
    flying := fun id hid => by
      rcases hV.flying id hid with h | h | h
      · exact .inl h
      · exact .inr (.inl (by_contra fun hn => hid (hF id h hn)))
      · exact .inr (.inr h)
    kid := fun z hz => hV.kid z (hsub.subset hz)
    nodup := hV.nodup.sublist hsub
    free := fun z hz => hV.free z (hsub.subset hz) }

end Facts

section Child

variable {i : ℕ} {v : List (Upsert K V)}

/-- Different children are different pages. -/
theorem other_target (hV : Visiting W ids N A T C H c g n hs old newPivots ((i, v) :: rest) lm kids mem F header
      created pg vn) {e : ℕ × List (Upsert K V)} (he : e ∈ rest) {u : Upsert K V} (hu : u ∈ e.2) :
    e.1 ≠ i ∧ pg g u.key ≠ n.children i := by
  have hne : e.1 ≠ i := by
    have hnd := hV.map.nodup
    rw [List.map_cons, List.nodup_cons] at hnd
    exact fun h => hnd.1 (List.mem_map.mpr ⟨e, he, h⟩)
  refine ⟨hne, fun h => hne ?_⟩
  obtain ⟨-, -, hq⟩ := hV.target (List.mem_cons_of_mem _ he) hu
  refine hV.ok.distinct _ _ ?_ ?_ (hq.symm.trans h)
  · exact hV.map.index_le (List.mem_cons_of_mem _ he)
  · exact hV.map.index_le List.mem_cons_self

/-- What is left once the child with the index `i` has been dealt with. -/
theorem map_tail (hV : Visiting W ids N A T C H c g n hs old newPivots ((i, v) :: rest) lm kids mem F header
      created pg vn) : MapOk N n.pivots n.size rest :=
  ⟨(List.nodup_cons.mp hV.map.nodup).2, fun e he => hV.map.vectors e (List.mem_cons_of_mem _ he)⟩

/-- The messages of a child wait until the end. -/
theorem take (hV : Visiting W ids N A T C H c g n hs old newPivots ((i, v) :: rest) lm kids mem F header
      created pg vn) :
    Visiting W ids N A T C H c g n hs old newPivots rest (lm ++ v) (kids ++ [n.children i]) mem F header created
      pg vn := by
  have hmem : (i, v) ∈ (i, v) :: rest := List.mem_cons_self
  obtain ⟨u₀, hu₀⟩ := List.exists_mem_of_ne_nil _ (hV.map.vectors _ hmem).1
  obtain ⟨-, hc₀, hq₀⟩ := hV.target hmem hu₀
  have hroom := hV.room
  rw [List.length_cons] at hroom
  refine { hV with
    room := by omega
    map := hV.map_tail
    unseen := fun e he => hV.unseen e (List.mem_cons_of_mem _ he)
    flight := hV.flight.trans ?_
    flying := fun id hid => ?_
    kid := fun z hz => ?_
    nodup := ?_
    free := fun z hz e he u hu => ?_
    open_below := fun k hk hrest => hV.open_below k hk fun h0 => ?_ }
  · show (v ++ rest.messages ++ lm).Perm (rest.messages ++ (lm ++ v))
    rw [List.append_assoc, ← List.append_assoc rest.messages]
    exact List.perm_append_comm
  · rcases hV.flying id hid with h | h | h
    · exact .inl h
    · exact .inr (.inl (List.mem_append_left _ h))
    · exact .inr (.inr h)
  · rcases List.mem_append.mp hz with hz | hz
    · exact hV.kid z hz
    · rw [List.mem_singleton.mp hz]
      exact ⟨u₀.key, hq₀, hc₀⟩
  · have hfree := hV.child_free hmem
    rw [List.nodup_append]
    refine ⟨hV.nodup, List.nodup_singleton _, fun a ha b hb e => hfree ?_⟩
    rw [← List.mem_singleton.mp hb, ← e]
    exact List.mem_cons_of_mem _ (List.mem_append_right _ ha)
  · rcases List.mem_append.mp hz with hz | hz
    · exact hV.free z hz e (List.mem_cons_of_mem _ he) u hu
    · rw [List.mem_singleton.mp hz]
      exact (hV.other_target he hu).2
  · obtain ⟨e, he, hidx⟩ := hrest h0
    exact ⟨e, List.mem_cons_of_mem _ he, hidx⟩

/-- The messages of an inner child are merged with its own; what does not stay in its buffer is in flight
below it afterwards. -/
theorem push {g' : ℕ} {m m' : BeInnerNode K V} {fl : List (Upsert K V)}
    (hV : Visiting W ids N A T C H c (g' + 1) n hs old newPivots ((i, v) :: rest) lm kids mem F header created
      pg vn)
    (hm : mem (n.children i) = some (.inner m))
    (hview : (BeNode.inner m').view = (BeNode.inner m).view) (hok : InnerNodeOk N m')
    (hmerge : (fl ++ m'.upserts.toList).Perm (mergeUpserts m.upserts.toList v)) :
    Visiting W ids N A T C H c (g' + 1) n hs old newPivots rest lm (kids ++ [n.children i])
      (Function.update mem (n.children i) (some (.inner m')))
      (Function.update (Function.update F c (rest.messages ++ lm)) (n.children i) fl) header created pg vn := by
  have hmem : (i, v) ∈ (i, v) :: rest := List.mem_cons_self
  obtain ⟨hne, hvs, -, -⟩ := hV.map.vectors _ hmem
  obtain ⟨u₀, hu₀⟩ := List.exists_mem_of_ne_nil _ hne
  obtain ⟨-, hc₀, hq₀⟩ := hV.target hmem hu₀
  have hfree := hV.child_free hmem
  have hlt := hV.lt
  have hqc : n.children i ≠ c := fun e => hfree (e ▸ List.mem_cons_self)
  have htake := hV.take
  set q := n.children i with hq
  set F' := Function.update (Function.update F c (rest.messages ++ lm)) q fl with hF'
  have hFc : F' c = rest.messages ++ lm := by
    rw [hF', Function.update_of_ne hqc.symm, Function.update_self]
  have hFq : F' q = fl := by rw [hF', Function.update_self]
  have hFo : ∀ id, id ≠ q → id ≠ c → F' id = F id := fun id h₁ h₂ => by
    rw [hF', Function.update_of_ne h₁, Function.update_of_ne h₂]
  have hFq₀ : F q = [] := by
    by_contra h
    rcases hV.flying q h with h | h | ⟨e, he, h⟩
    · exact hqc h
    · exact hfree (List.mem_cons_of_mem _ (List.mem_append_right _ h))
    · exact hfree (List.mem_cons_of_mem _ (List.mem_append_left _ (h ▸ List.mem_map_of_mem he)))
  have hold : ∀ e ∈ old, e.1 ≠ q ∧ e.1 ≠ c := fun e he => by
    have h := hV.old_ne he hc₀
    exact ⟨hq₀ ▸ h.2, h.1⟩
  have hcomm : Function.update (Function.update mem q (some (.inner m'))) c (some (.inner vn)) =
      Function.update (Function.update mem c (some (.inner vn))) q (some (.inner m')) :=
    Function.update_comm hqc _ _ _
  have hleaf : ∀ k, Function.update mem q (some (.inner m')) (pg 0 k) = mem (pg 0 k) := fun k => by
    refine Function.update_of_ne ?_ _ _
    rw [← hq₀]
    exact hV.inv.routed.page_ne (Nat.zero_le _) (by omega) (by omega)
  refine { htake with
    keeps := ?_
    cur := by rw [Function.update_of_ne hqc.symm, hV.cur]
    flight := by rw [hFc]
    flying := fun id hid => ?_
    entries := ?_
    waits := ?_
    open_below := fun k hk _ => (hV.open_below k hk (by simp)).congr (hleaf k) le_rfl
    open_old := fun e he k h hh hk => (hV.open_old e he k h hh hk).congr (hleaf k) le_rfl }
  · rw [hcomm]
    have hpush := hV.keeps.push F' u₀.key m' (g := g') (n := m) (v := v) (by omega)
    rw [hq₀, hc₀] at hpush
    refine hpush (by rw [Function.update_of_ne hqc, hm]) hFq₀ hview hok hvs (fun u hu => ?_) ?_ ?_ hFo
    · exact (hV.target hmem hu).2.2
    · rw [hFq]
      exact hmerge
    · rw [hFc]
      refine hV.flight.trans ?_
      show (v ++ rest.messages ++ lm).Perm (v ++ (rest.messages ++ lm))
      rw [List.append_assoc]
  · by_cases h₁ : id = q
    · exact .inr (.inl (h₁ ▸ List.mem_append_right _ (List.mem_singleton_self _)))
    by_cases h₂ : id = c
    · exact .inl h₂
    rw [hFo id h₁ h₂] at hid
    exact htake.flying id hid
  · refine entries_imp hV.entries fun g₀ e he hE => ?_
    obtain ⟨h₁, h₂⟩ := hold e he
    exact hE.congr (Function.update_of_ne h₁ _ _) (hFo _ h₁ h₂) hE.page
  · -- an INSERT of the merged messages carries the key of one that waited
    rw [hcomm]
    refine hV.waits.update ?_ fun id hid u hu => ?_
    · rw [hFq]
      refine (Watch.Admits.merge ?_ ?_).mono fun u hu => hmerge.mem_iff.mp hu
      · have hmq : Function.update mem c (some (.inner vn)) q = some (.inner m) := by
          rw [Function.update_of_ne hqc, hm]
        refine (hV.waits q).mono fun u hu => ?_
        rw [waitingAt_inner hmq]
        exact List.mem_append_right _ hu
      · refine (hV.waits c).mono fun u hu => List.mem_append_left _ (hV.flight.mem_iff.mpr ?_)
        exact List.mem_append_left _ (List.mem_append_left _ hu)
    · by_cases hc : id = c
      · subst hc
        rw [hFc] at hu
        refine hV.flight.mem_iff.mpr ?_
        show u ∈ v ++ rest.messages ++ lm
        rw [List.append_assoc]
        exact List.mem_append_right _ hu
      · rwa [hFo id hid hc] at hu

end Child

/-- A child that has been visited was split; its parent learns the pivot and the page. -/
theorem learn (hV : Visiting W ids N A T C H c g n hs old newPivots rest lm kids mem F header created pg vn)
    (hinj : ∀ i j, ids i = ids j → i = j) {k₀ mid : K} (hc₀ : pg (g + 1) k₀ = c) (hq : pg g k₀ ∈ kids)
    (hnew : ∀ t ∈ newPivots, t.1 ≠ lowerBound n.pivots n.size k₀)
    (hrest : ∀ e ∈ rest, e.1 ≠ lowerBound n.pivots n.size k₀) (hroom : vn.size + 1 + rest.length ≤ N.INNER_N)
    (hS : NodeSplit ids N (Function.update mem c (some (.inner vn)))
      (Function.update mem' c (some (.inner (vn.learn k₀ mid (ids created))))) F F' created H pg g k₀ mid)
    (hmc : mem' c = mem c) (hFc : F' c = F c) :
    Visiting W ids N A T C H c g n hs old
      (newPivots ++ [(lowerBound n.pivots n.size k₀, mid, ids created)]) rest lm (kids ++ [ids created])
      mem' F' header (created + 1) (Routed.splitPg pg g (pg g k₀) (ids created) mid)
      (vn.learn k₀ mid (ids created)) := by
  obtain ⟨routeP, P, C', hstep⟩ := hS.step
  have hlt := hV.lt
  have hfresh : ∀ h' ≤ H, ∀ k, pg h' k ≠ ids created := fun h' hh k =>
    hV.inv.fresh_page hinj le_rfl hh k
  have hindex : ∀ k, pg g k = pg g k₀ → lowerBound n.pivots n.size k = lowerBound n.pivots n.size k₀ :=
    fun k hk => hV.index hc₀ hnew hk
  obtain ⟨x, hx, hlx⟩ := hstep.above
  have hmid := hstep.mid_mem
  have hrfresh : ids created ∉ Fanout.childSet vn.children vn.size := fun hr => by
    obtain ⟨k, hk, -⟩ := hV.mem_childSet hr
    exact hfresh g (by omega) k hk
  have hgrown := hV.grown.learn hV.ok.distinct hV.fresh hnew rfl (hindex mid hmid) (hindex x hx) hlx hrfresh
  have hpage : ∀ k, Routed.splitPg pg g (pg g k₀) (ids created) mid (g + 1) k = pg (g + 1) k := fun k =>
    Routed.splitPg_of_ne (by omega) k
  have hothers : ∀ id, id ≠ c → id ≠ pg g k₀ → id ≠ ids created → mem' id = mem id ∧ F' id = F id := by
    intro id h₁ h₂ h₃
    have h := hS.others id (by rw [hc₀]; exact h₁) h₂ h₃
    rwa [Function.update_of_ne h₁, Function.update_of_ne h₁] at h
  have hold : ∀ e ∈ old, e.1 ≠ c ∧ e.1 ≠ pg g k₀ ∧ e.1 ≠ ids created := fun e he => by
    obtain ⟨h₁, h₂⟩ := hV.old_ne he hc₀
    obtain ⟨g₀, -, hE⟩ := exists_entry hV.entries he
    obtain ⟨k, hk⟩ := hE.page
    exact ⟨h₁, h₂, hk ▸ hfresh (g₀ + 1) hE.lt.le k⟩
  have hcr : c ≠ ids created := hc₀ ▸ hfresh (g + 1) (by omega) k₀
  -- the leaves of other pages stay as they are
  have hkeep : ∀ k, pg 0 k ≠ pg g k₀ → W.Open N mem created pg k → W.Open N mem' (created + 1)
      (Routed.splitPg pg g (pg g k₀) (ids created) mid) k := by
    intro k hk h
    have hpk : Routed.splitPg pg g (pg g k₀) (ids created) mid 0 k = pg 0 k := splitPg_of_ne_page hk
    refine h.congr ?_ (Nat.le_succ _)
    rw [hpk]
    refine (hothers _ ?_ hk (hfresh 0 (Nat.zero_le _) k)).1
    rw [← hc₀]
    exact hV.inv.routed.page_ne (Nat.zero_le _) (by omega) (by omega)
  exact
  { keeps := hV.keeps.split hinj hS
    lt := hlt
    ok := hV.ok
    cur := by rw [hmc, hV.cur]
    page := ⟨k₀, by rw [hpage, hc₀]⟩
    grown := hgrown.perm (List.perm_append_singleton _ _).symm
    upserts := hV.upserts
    room := hroom
    map := hV.map
    unseen := fun e he t ht => by
      rcases List.mem_append.mp ht with ht | ht
      · exact hV.unseen e he t ht
      · rw [List.mem_singleton.mp ht]
        exact (hrest e he).symm
    pivots := fun t ht => by
      rcases List.mem_append.mp ht with ht | ht
      · exact hV.pivots t ht
      · rw [List.mem_singleton.mp ht]
        refine ⟨hindex mid hmid, fun h => hlx.trans_le ?_⟩
        rw [← hindex x hx] at h ⊢
        exact le_of_lowerBound_lt h
    indices := by
      rw [List.map_append, List.nodup_append]
      refine ⟨hV.indices, List.nodup_singleton _, fun a ha b hb => ?_⟩
      obtain ⟨t, ht, rfl⟩ := List.mem_map.mp ha
      rw [List.mem_singleton.mp hb]
      exact hnew t ht
    rights := by
      rw [List.map_append, List.nodup_append]
      refine ⟨hV.rights, List.nodup_singleton _, fun a ha b hb e => hrfresh ?_⟩
      obtain ⟨t, ht, rfl⟩ := List.mem_map.mp ha
      rw [(hV.grown.children _)]
      exact .inr ⟨t, ht, e.trans (List.mem_singleton.mp hb)⟩
    fresh := fun t ht => by
      rcases List.mem_append.mp ht with ht | ht
      · exact hV.fresh t ht
      · rw [List.mem_singleton.mp ht]
        exact fun h => hrfresh ((hV.grown.children _).mpr (.inl h))
    flight := by
      rw [hFc]
      exact hV.flight
    flying := fun id hid => by
      by_cases h₁ : id = c
      · exact .inl h₁
      by_cases h₂ : id = pg g k₀
      · exact .inr (.inl (List.mem_append_left _ (h₂ ▸ hq)))
      by_cases h₃ : id = ids created
      · exact .inr (.inl (List.mem_append_right _ (List.mem_singleton.mpr h₃)))
      rw [(hothers id h₁ h₂ h₃).2] at hid
      rcases hV.flying id hid with h | h | h
      · exact .inl h
      · exact .inr (.inl (List.mem_append_left _ h))
      · exact .inr (.inr h)
    entries := by
      refine entries_imp hV.entries fun g₀ e he hE => ?_
      obtain ⟨h₁, h₂, h₃⟩ := hold e he
      obtain ⟨hm, hF⟩ := hothers e.1 h₁ h₂ h₃
      obtain ⟨k, hk⟩ := hE.page
      exact hE.congr hm hF ⟨k, by rw [splitPg_of_ne_page (by rw [hk]; exact h₂), hk]⟩
    apart := hV.apart.imp_of_mem fun ha hb h => h.split (hold _ ha).2.2 (hold _ hb).2.2
    away := fun e he => (hV.away e he).split hcr (hold e he).2.2
    kid := fun z hz => by
      rcases List.mem_append.mp hz with hz | hz
      · obtain ⟨k, hk, hkc⟩ := hV.kid z hz
        by_cases hzq : z = pg g k₀
        · refine ⟨mid, by rw [Routed.splitPg_left le_rfl, hmid, hzq], ?_⟩
          rw [hpage, ← hc₀]
          exact hV.inv.routed.parent g (by omega) _ _ hmid
        · exact ⟨k, by rw [splitPg_of_ne_page (by rw [hk]; exact hzq), hk], by rw [hpage, hkc]⟩
      · refine ⟨x, ?_, ?_⟩
        · rw [Routed.splitPg_right hx hlx, List.mem_singleton.mp hz]
        · rw [hpage, ← hc₀]
          exact hV.inv.routed.parent g (by omega) _ _ hx
    nodup := by
      rw [List.nodup_append]
      refine ⟨hV.nodup, List.nodup_singleton _, fun a ha b hb e => ?_⟩
      obtain ⟨k, hk, -⟩ := hV.kid a ha
      exact hfresh g (by omega) k (hk.trans (e.trans (List.mem_singleton.mp hb)))
    free := fun z hz e he u hu => by
      have hne := hV.free _ hq e he u hu
      rw [splitPg_of_ne_page hne]
      rcases List.mem_append.mp hz with hz | hz
      · exact hV.free z hz e he u hu
      · rw [List.mem_singleton.mp hz]
        exact hfresh g (by omega) u.key
    waits := hV.waits.split hS
    open_below := fun k hk hk' => by
      rw [hpage] at hk
      refine hkeep k (fun e => ?_) (hV.open_below k hk hk')
      obtain rfl := hV.inv.routed.level _ _ _ _ (Nat.zero_le H) (by omega : g ≤ H) e
      obtain ⟨e', he', hidx⟩ := hk' rfl
      exact hrest e' he' (hidx.symm.trans (hindex k e))
    open_old := fun e he k h hh hk => by
      have hold' := splitPg_eq_old (hold e he).2.2 hk
      refine hkeep k (fun e' => ?_) (hV.open_old e he k h hh hold')
      obtain rfl := hV.inv.routed.level _ _ _ _ (Nat.zero_le H) (by omega : g ≤ H) e'
      have hkc := (hV.inv.routed.parent 0 (by omega) _ _ e').trans hc₀
      exact hV.away e he k 1 h (by omega) hh hkc hold' }

/-- The node takes the pivots, and the tree is as the proofs have had it. -/
theorem finish [BoundedOrder K] (hV : Visiting W ids N A T C H c g n hs old newPivots [] lm kids mem F header created
    pg vn) :
    Keeps ids N A T C (Function.update mem c (some (.inner (n.insertPivots (sortPivots newPivots))))) F header
      created H pg := by
  have hgrown := insertPivots_grown hV.ok.sorted hV.ok.distinct hV.pivots hV.indices hV.fresh hV.rights
  have hroom := hV.room
  rw [List.length_nil, Nat.add_zero] at hroom
  have hsize : (n.insertPivots (sortPivots newPivots)).size = vn.size := by
    rw [hgrown.size, hV.grown.size]
  obtain ⟨k, hk⟩ := hV.page
  have h := hV.keeps.set_pivots hV.lt k (n := vn) (by rw [hk, Function.update_self])
    (hgrown.view_eq hV.grown (List.Perm.refl _))
    ⟨hgrown.sorted, hgrown.distinct, by omega, hV.ok.upserts, hV.ok.upserts_le⟩ (by rw [hV.upserts]; rfl)
  rwa [hk, Function.update_idem] at h

theorem finish_waits (hV : Visiting W ids N A T C H c g n hs old newPivots rest lm kids mem F header created pg vn) :
    W.Waits (Function.update mem c (some (.inner (n.insertPivots (sortPivots newPivots))))) F := by
  have hc := hV.waits c
  rw [waitingAt_inner (Function.update_self _ _ _), hV.upserts] at hc
  have h : W.Waits (Function.update (Function.update mem c (some (.inner vn))) c
      (some (.inner (n.insertPivots (sortPivots newPivots))))) F := hV.waits.update hc fun _ _ _ hu => hu
  rwa [Function.update_idem] at h

/-- The page is no leaf. -/
theorem leaf_ne (hV : Visiting W ids N A T C H c g n hs old newPivots rest lm kids mem F header created pg vn)
    (k : K) : pg 0 k ≠ c := by
  obtain ⟨k₀, hk₀⟩ := hV.page
  have hlt := hV.lt
  rw [← hk₀]
  exact hV.inv.routed.page_ne (Nat.zero_le _) (by omega) (by omega)

/-- What the proofs have had of page `c` and what is in memory route alike, and the messages that are left
below it are for its keys. -/
theorem range (hV : Visiting W ids N A T C H c g n hs old newPivots rest lm kids mem F header created pg vn)
    {u : Upsert K V} (hu : u ∈ lm) : pg (g + 1) u.key = c := by
  obtain ⟨k, hk⟩ := hV.page
  have hlt := hV.lt
  have hmem : u ∈ waitingAt (Function.update mem c (some (.inner vn))) F (pg (g + 1) k) := by
    rw [hk]
    exact List.mem_append_left _ (hV.flight.mem_iff.mpr (List.mem_append_right _ hu))
  rw [(hV.inv.waiting (g + 1) (by omega) k).range u hmem, hk]

/-- The first page of a queue, before its children are visited. -/
theorem start (hK : Keeps ids N A T C mem F header created H pg) {map : MessageMap K V}
    (hl : List.Forall₂ (Entry N mem F H pg) (g :: hs) ((c, map) :: old))
    (hap : ((c, map) :: old).Pairwise fun a b => Apart pg H a.1 b.1)
    (hF : ∀ id, F id ≠ [] → ∃ e ∈ (c, map) :: old, e.1 = id) (hW : W.Waits mem F)
    (hopen : ∀ e ∈ (c, map) :: old, ∀ k, ∀ h ≤ H, pg h k = e.1 → W.Open N mem created pg k)
    {tm : MessageMap K V} (htm : tm.Perm map) :
    ∃ n, Visiting W ids N A T C H c g n hs old [] tm [] [] mem F header created pg n := by
  obtain ⟨hE, hrest⟩ := List.forall₂_cons.mp hl
  obtain ⟨hap₁, hap₂⟩ := List.pairwise_cons.mp hap
  obtain ⟨n, hn, hmap, hroom⟩ := hE.node
  obtain ⟨k, hk⟩ := hE.page
  dsimp only at hn hmap hroom hk
  have hok : InnerNodeOk N n := (hK.inv.nodes (g + 1) hE.lt.le k (.inner n) (by rw [hk, hn])).2
  refine ⟨n, ⟨?_, hE.lt, hok, hn, ⟨k, hk⟩, .nil hok.sorted hok.distinct, rfl, ?_, hmap.perm htm, ?_, ?_, ?_, ?_,
    ?_, ?_, fun id hid => ?_, hrest, hap₂, hap₁, ?_, List.nodup_nil, ?_, ?_, fun k hk _ => ?_,
    fun e he => hopen e (List.mem_cons_of_mem _ he)⟩⟩
  · rwa [← hn, Function.update_eq_self]
  · rw [htm.length_eq]
    exact hroom
  · simp
  · simp
  · simp
  · simp
  · simp
  · rw [List.append_nil]
    exact hE.flight.trans (htm.symm.flatMap_right _)
  · obtain ⟨e, he, hid⟩ := hF id hid
    rcases List.mem_cons.mp he with rfl | he
    · exact .inl hid.symm
    · exact .inr (.inr ⟨e, he, hid⟩)
  · simp
  · simp
  · rwa [← hn, Function.update_eq_self]
  · have hlt := hE.lt
    exact hopen _ List.mem_cons_self k (g + 1) hlt.le hk

end Visiting

end BEpsilon.BeTree
