import BEpsilon.BeTree.Bounds
import BEpsilon.BeTree.Pins
import BEpsilon.Trees.LatchRules

/-!
# BEpsilon.BeTree.Latching — the latches of the flush

What the routines that split nodes and hand messages down owe to other threads.  The flush has the pages of
its queue latched exclusively, so that the nodes there are those that it left, and goes only to children of
nodes: never to the root page.
-/

namespace BEpsilon.BeTree

open Slots Fanout

variable {K V : Type}

/-- The children of a node. -/
def BeNode.Refers : BeNode K V → PageId → Prop
  | .leaf _, _ => False
  | .inner n, e => e ∈ childSet n.children n.size
  | .root n, e => e ∈ childSet n.children n.size

def BeNode.isLeaf : BeNode K V → Bool
  | .leaf _ => true
  | _ => false

/-- What the latching of the root depends on; an inner node is never on the root page. -/
def layout : TreeLayout (BeNode K V) Header where
  isLeaf := BeNode.isLeaf
  mayBeRoot d := ∀ n, d ≠ .inner n
  refers := BeNode.Refers
  rootID := Header.rootID
  rootLeaf := Header.rootLeaf

variable {α : Type} {root page : PageId} {s : Sight (BeNode K V)} {e : Bool} {x : Option (BeNode K V)}
  {Q : α → Sight (BeNode K V) → Prop}

theorem minds_asLeaf {f : BeLeafNode K V → BeProg K V α} (hs : s.Calm layout root)
    (h : ∀ n, s.Reads root page (.leaf n) → Minds layout root (f n) s Q) :
    Minds layout root ((asLeaf page).bind f) s Q := by
  simp only [asLeaf, Prog.bind_def, Prog.bind_assoc]
  refine minds_read fun d _ hd => ?_
  cases d with
  | leaf n => exact h n hd
  | inner n => exact always_call hs fun b => b.elim
  | root n => exact always_call hs fun b => b.elim

theorem minds_asInner {f : BeInnerNode K V → BeProg K V α} (hs : s.Calm layout root)
    (h : ∀ n, (∀ i ≤ n.size, n.children i ≠ root) → s.Reads root page (.inner n) → Minds layout root (f n) s Q) :
    Minds layout root ((asInner page).bind f) s Q := by
  simp only [asInner, Prog.bind_def, Prog.bind_assoc]
  refine minds_read fun d hrefers hd => ?_
  cases d with
  | leaf n => exact always_call hs fun b => b.elim
  | inner n => exact h n (fun i hi => hrefers _ ⟨i, hi, rfl⟩) hd
  | root n => exact always_call hs fun b => b.elim

theorem minds_asRoot {f : BeRootNode K → BeProg K V α} (hs : s.Calm layout root)
    (h : ∀ n, (∀ i ≤ n.size, n.children i ≠ root) → s.Reads root page (.root n) → Minds layout root (f n) s Q) :
    Minds layout root ((asRoot page).bind f) s Q := by
  simp only [asRoot, Prog.bind_def, Prog.bind_assoc]
  refine minds_read fun d hrefers hd => ?_
  cases d with
  | leaf n => exact always_call hs fun b => b.elim
  | inner n => exact always_call hs fun b => b.elim
  | root n => exact h n (fun i hi => hrefers _ ⟨i, hi, rfl⟩) hd

theorem refers_leaf {n : BeLeafNode K V} : ∀ e, layout.refers (.leaf n) e → e ≠ root :=
  fun _ h => h.elim

theorem refers_inner {n : BeInnerNode K V} (h : ∀ i ≤ n.size, n.children i ≠ root) :
    ∀ e, layout.refers (.inner n) e → e ≠ root := by
  rintro _ ⟨i, hi, rfl⟩
  exact h i hi

theorem refers_root {n : BeRootNode K} (h : ∀ i ≤ n.size, n.children i ≠ root) :
    ∀ e, (layout (V := V)).refers (.root n) e → e ≠ root := by
  rintro _ ⟨i, hi, rfl⟩
  exact h i hi

variable [LinearOrder K] [BoundedOrder K] [DecidableEq V] [Add V] [Inhabited K] [Inhabited V]
variable {N : NodeSizes} {O : Unspecified K V}

section Split

omit [BoundedOrder K] [DecidableEq V] [Add V] [Inhabited K] [Inhabited V]

/-- Both halves of a leaf are latched, the new one exclusively. -/
theorem minds_splitLeafNode {key : K} {f : PageId × K → BeProg K V α} (hs : s.Settled layout root)
    (hpage : s.held page = some (e, x)) (hroot : page = root → e = true)
    (h : ∀ right mid l r, right ≠ root → s.held right = none →
      ((s.put right (.leaf r)).hold page e (some (.leaf l))).Settled layout root →
      Minds layout root (f (right, mid)) ((s.put right (.leaf r)).hold page e (some (.leaf l))) Q) :
    Minds layout root ((splitLeafNode O page key).bind f) s Q := by
  simp only [splitLeafNode, Prog.bind_def, Prog.pure_def, Prog.bind_assoc]
  refine minds_asLeaf hs.calm fun n hn => minds_check hs.due (minds_createPage hs fun right hright => ?_)
  refine minds_pinFixed hright hs fun hnone d => ?_
  have hne := Sight.ne_of_held hpage hnone
  refine minds_write Sight.hold_self (fun h => absurd h hright) refers_leaf ?_
  rw [Sight.hold_hold]
  have hpage' : ∀ d, (s.hold right true d).held page = some (e, x) := fun d => (Sight.hold_ne hne).trans hpage
  refine minds_write (hpage' _) (fun hr => ⟨hroot hr, by simp [layout]⟩) refers_leaf ?_
  refine h right _ _ _ hright hnone ?_
  refine (hs.put hright).rewrite (x := .leaf n) (hpage' _) ?_ rfl
  intro e' x' he' hex
  rw [Sight.put_ne hne] at he'
  exact hn e' x' he' hex

/-- Both halves of an inner node are latched exclusively. -/
theorem minds_splitInnerNode {n : BeInnerNode K V} {f : PageId × K → BeProg K V α} (hs : s.Settled layout root)
    (hid : page ≠ root) (hpage : s.held page = some (true, some (.inner n))) (hsize : 1 ≤ n.size)
    (h : ∀ right mid l r, right ≠ root → s.held right = none → l.size + r.size + 1 = n.size →
      Minds layout root (f (right, mid)) ((s.put right (.inner r)).put page (.inner l)) Q) :
    Minds layout root ((splitInnerNode O page).bind f) s Q := by
  simp only [splitInnerNode, Prog.bind_def, Prog.pure_def, Prog.bind_assoc]
  refine minds_asInner hs.calm fun n' hchildren hn => ?_
  obtain rfl : n = n' := by simpa using hn true _ hpage (.inl rfl)
  refine minds_check hs.due (minds_createPage hs fun right hright => ?_)
  refine minds_pinFixed hright hs fun hnone d => ?_
  have hne := Sight.ne_of_held hpage hnone
  refine minds_write Sight.hold_self (fun h => absurd h hright) (refers_inner ?_) ?_
  · intro i hi
    dsimp only at hi ⊢
    rw [moveTo_zero (by omega)]
    exact hchildren _ (by omega)
  rw [Sight.hold_hold]
  refine minds_write ((Sight.hold_ne hne).trans hpage) (fun hr => absurd hr hid) (refers_inner ?_)
    (h right _ _ _ hright hnone ?_)
  · intro i hi
    dsimp only at hi ⊢
    exact hchildren i (by omega)
  · dsimp only
    omega

omit [LinearOrder K] in
/-- The old root is on the new page, and the root page has been released as a root node. -/
theorem minds_createRoot {mid : K} {right : PageId} {d : BeNode K V} {f : PageId → BeProg K V α}
    (hs : s.Settled layout root) (hroot : s.held root = some (true, some d)) (hright : right ≠ root)
    (h : ∀ newRoot s', newRoot ≠ root → s.held newRoot = none → Sight.Below root s' →
      s'.held newRoot = some (true, some d) → (∀ id, id ≠ root → id ≠ newRoot → s'.held id = s.held id) →
      Minds layout root (f newRoot) s' Q) :
    Minds layout root ((createRoot O mid root right).bind f) s Q := by
  simp only [createRoot, Prog.bind_def, Prog.pure_def, Prog.bind_assoc]
  refine minds_createPage hs fun newRoot hnew => minds_pinFixed hnew hs fun hnone o => ?_
  have hroot' : ∀ o, (s.hold newRoot true o).held root = some (true, some d) :=
    fun o => (Sight.hold_ne (Ne.symm hnew)).trans hroot
  refine minds_read fun d' hrefers hd' => ?_
  obtain rfl : d = d' := by simpa using hd' true _ (hroot' o) (.inl rfl)
  refine minds_write Sight.hold_self (fun h => absurd h hnew) hrefers ?_
  rw [Sight.hold_hold]
  set newNode := BeRootNode.fresh (O.memory newRoot)
  set n : BeRootNode K := ⟨Function.update newNode.pivots 0 mid,
    Function.update (Function.update newNode.children 0 newRoot) 1 right, 1⟩
  refine minds_write (hroot' _) (fun _ => ⟨rfl, by simp [layout]⟩) (refers_root ?_) ?_
  · intro i hi
    have hi : i ≤ 1 := hi
    rcases (by omega : i = 0 ∨ i = 1) with rfl | rfl
    · simpa [n] using hnew
    · simpa [n] using hright
  refine minds_clearFlag (fun _ => ⟨rfl, rfl⟩) Sight.hold_self fun header' => ?_
  -- the flag is cleared before the root page is released
  have hfinal : Sight.Settled layout root
      (Sight.know ((s.hold newRoot true (some d)).hold root true (some (.root n))) false) := by
    refine ⟨?_, hs.due⟩
    intro e' d' he
    rw [Sight.know_held, Sight.hold_self] at he
    obtain ⟨-, rfl⟩ := by simpa using he
    exact ⟨.root n, rfl, rfl⟩
  refine minds_unpinPage hfinal (h newRoot _ hnew hnone (Sight.below_drop hs.due) ?_ ?_)
  · rw [Sight.drop_held_ne hnew, Sight.know_held, Sight.hold_ne hnew, Sight.hold_self]
  · intro id h₁ h₂
    rw [Sight.drop_held_ne h₁, Sight.know_held, Sight.hold_ne h₁, Sight.hold_ne h₂]

end Split

/-! ### The pages of the flush -/

section Pages

/-- The pages `l`, none of them twice, are latched exclusively, and none of them is the root page. -/
structure Owned (root : PageId) (l : Multiset PageId) (s : Sight (BeNode K V)) : Prop where
  nodup : l.Nodup
  held : ∀ p ∈ l, p ≠ root ∧ ∃ d, s.held p = some (true, some d)

/-- The latches of the flush: those of the queue, whose maps have only indices of children, and those of the
pages `l` that are in work. -/
structure Queued (root : PageId) (queue : List (PageId × MessageMap K V)) (l : Multiset PageId)
    (s : Sight (BeNode K V)) : Prop where
  below : s.Below root
  owned : Owned root (pagesOf queue + l) s
  entries : ∀ e ∈ queue, ∃ n, s.held e.1 = some (true, some (.inner n)) ∧ ∀ x ∈ e.2, x.1 ≤ n.size

variable {queue : List (PageId × MessageMap K V)} {map : MessageMap K V} {l : Multiset PageId} {q : PageId}
  {d : BeNode K V} {n : BeInnerNode K V}

omit [LinearOrder K] [BoundedOrder K] [DecidableEq V] [Add V] [Inhabited K] [Inhabited V]

theorem mem_pagesOf {a : PageId × MessageMap K V} (h : a ∈ queue) : a.1 ∈ pagesOf queue :=
  Multiset.mem_coe.mpr (List.mem_map_of_mem h)

theorem Owned.put (h : Owned root l s) : Owned root l (s.put q d) := by
  refine ⟨h.nodup, ?_⟩
  intro p hp
  obtain ⟨hroot, d', hd'⟩ := h.held p hp
  refine ⟨hroot, ?_⟩
  by_cases e : p = q
  · subst e
    exact ⟨d, Sight.put_self⟩
  · exact ⟨d', (Sight.put_ne e).trans hd'⟩

/-- Another page is latched. -/
theorem Owned.pin (h : Owned root l s) (hnone : s.held q = none) (hq : q ≠ root) :
    Owned root (q ::ₘ l) (s.put q d) := by
  refine ⟨Multiset.nodup_cons.mpr ⟨?_, h.nodup⟩, ?_⟩
  · intro hmem
    obtain ⟨-, d', hd'⟩ := h.held q hmem
    exact Sight.ne_of_held hd' hnone rfl
  · intro p hp
    rcases Multiset.mem_cons.mp hp with rfl | hp
    · exact ⟨hq, d, Sight.put_self⟩
    · exact h.put.held p hp

theorem Owned.drop (h : Owned root (q ::ₘ l) s) : Owned root l (s.drop root q) := by
  obtain ⟨hq, hl⟩ := Multiset.nodup_cons.mp h.nodup
  refine ⟨hl, ?_⟩
  intro p hp
  obtain ⟨hroot, d', hd'⟩ := h.held p (Multiset.mem_cons_of_mem hp)
  have hne : p ≠ q := by
    rintro rfl
    exact hq hp
  exact ⟨hroot, d', (Sight.drop_held_ne hne).trans hd'⟩

namespace Queued

theorem ne_entry (h : Queued root queue l s) (hq : q ∈ l) {a : PageId × MessageMap K V} (ha : a ∈ queue) :
    a.1 ≠ q := by
  intro e
  have hdisj := (Multiset.nodup_add.mp h.owned.nodup).2.2
  exact Multiset.disjoint_left.mp hdisj (mem_pagesOf ha) (e ▸ hq)

theorem congr {l' : Multiset PageId} (h : Queued root queue l s) (hl : l = l') : Queued root queue l' s := hl ▸ h

theorem pin (h : Queued root queue l s) (hnone : s.held q = none) (hq : q ≠ root) :
    Queued root queue (q ::ₘ l) (s.put q d) := by
  refine ⟨h.below.put hq, ?_, ?_⟩
  · rw [Multiset.add_cons]
    exact h.owned.pin hnone hq
  · intro a ha
    obtain ⟨n, hn, hmap⟩ := h.entries a ha
    exact ⟨n, (Sight.put_ne (Sight.ne_of_held hn hnone)).trans hn, hmap⟩

theorem ne_root (h : Queued root queue l s) (hq : q ∈ l) : q ≠ root :=
  (h.owned.held q (Multiset.mem_add.mpr (.inr hq))).1

theorem held (h : Queued root queue l s) (hq : q ∈ l) : ∃ d, s.held q = some (true, some d) :=
  (h.owned.held q (Multiset.mem_add.mpr (.inr hq))).2

theorem put (h : Queued root queue l s) (hq : q ∈ l) : Queued root queue l (s.put q d) := by
  refine ⟨h.below.put (h.ne_root hq), h.owned.put, ?_⟩
  intro a ha
  obtain ⟨n, hn, hmap⟩ := h.entries a ha
  exact ⟨n, (Sight.put_ne (h.ne_entry hq ha)).trans hn, hmap⟩

theorem drop (h : Queued root queue (q ::ₘ l) s) : Queued root queue l (s.drop root q) := by
  refine ⟨h.below.drop, Owned.drop ?_, ?_⟩
  · rw [← Multiset.add_cons]
    exact h.owned
  · intro a ha
    obtain ⟨n, hn, hmap⟩ := h.entries a ha
    exact ⟨n, (Sight.drop_held_ne (h.ne_entry (Multiset.mem_cons_self q l) ha)).trans hn, hmap⟩

/-- A page in work goes to the queue. -/
theorem push (h : Queued root queue (q ::ₘ l) s) (hn : s.held q = some (true, some (.inner n)))
    (hmap : ∀ x ∈ map, x.1 ≤ n.size) : Queued root (queue ++ [(q, map)]) l s := by
  refine ⟨h.below, ?_, ?_⟩
  · rw [pagesOf_append, Multiset.cons_add, ← Multiset.add_cons]
    exact h.owned
  · intro a ha
    rcases List.mem_append.mp ha with ha | ha
    · exact h.entries a ha
    · obtain rfl := List.mem_singleton.mp ha
      exact ⟨n, hn, hmap⟩

/-- The first page of the queue is taken out. -/
theorem pop (h : Queued root ((q, map) :: queue) l s) : Queued root queue (q ::ₘ l) s := by
  refine ⟨h.below, ?_, fun a ha => h.entries a (List.mem_cons_of_mem _ ha)⟩
  rw [Multiset.add_cons, ← Multiset.cons_add, ← pagesOf_cons queue q map]
  exact h.owned

end Queued

/-- The page is in the queue afterwards, or it has been released. -/
theorem minds_enqueue {f : List (PageId × MessageMap K V) → BeProg K V α} (h : Queued root queue (q ::ₘ l) s)
    (hn : s.held q = some (true, some (.inner n))) (hmap : ∀ x ∈ map, x.1 ≤ n.size)
    (hf : ∀ queue' s', Queued root queue' l s' → (∀ p ∈ l, s'.held p = s.held p) → Minds layout root (f queue') s' Q) :
    Minds layout root ((enqueue q map queue).bind f) s Q := by
  simp only [enqueue, Prog.bind_def, Prog.pure_def, Prog.ite_bind, Prog.bind_assoc, Prog.ret_bind]
  split_ifs
  · refine minds_unpinPage h.below.settled (hf queue _ h.drop ?_)
    intro p hp
    refine Sight.drop_held_ne ?_
    rintro rfl
    have hnodup := (Multiset.nodup_add.mp h.owned.nodup).2.1
    exact (Multiset.nodup_cons.mp hnodup).1 hp
  · exact hf _ s (h.push hn hmap) fun _ _ => rfl

end Pages

section Flush

omit [DecidableEq V]

omit [Add V] in
theorem minds_medianKeyOf {n : BeLeafNode K V} {us : List (Upsert K V)} {f : K → BeProg K V α}
    (hs : s.Calm layout root) (h : ∀ key, Minds layout root (f key) s Q) :
    Minds layout root ((medianKeyOf n us).bind f) s Q := by
  unfold medianKeyOf
  split
  · exact h _
  · exact always_call hs fun b => b.elim

omit [BoundedOrder K] [Inhabited K] [Inhabited V] in
/-- The node keeps its children, and the map has only indices of them. -/
theorem minds_removeMessages {n : BeInnerNode K V} {us : List (Upsert K V)} {f : MessageMap K V → BeProg K V α}
    (hs : s.Settled layout root) (hid : page ≠ root) (hpage : s.held page = some (true, some (.inner n)))
    (h : ∀ (n' : BeInnerNode K V) (map : MessageMap K V), n'.size = n.size → (∀ x ∈ map, x.1 ≤ n.size) →
      (n.size = 0 → map.length ≤ 1) → Minds layout root (f map) (s.put page (.inner n')) Q) :
    Minds layout root ((removeMessages N O page us).bind f) s Q := by
  simp only [removeMessages, Prog.bind_def, Prog.pure_def, Prog.bind_assoc]
  refine minds_asInner hs.calm fun n₀ hchildren hn => ?_
  obtain rfl : n = n₀ := by simpa using hn true _ hpage (.inl rfl)
  refine minds_check hs.due (minds_check hs.due (minds_write hpage (fun h => absurd h hid) (refers_inner ?_) ?_))
  · intro i hi
    exact hchildren i hi
  · exact h _ _ size_removeMessages removeMessages_index_le length_removeMessages_le

/-- While the children of `n` on page `c` are visited: the pages of the queue, `c`, the leaf children with
messages and the pages `l` in work are latched, and the new pivots are for children of `n`. -/
structure Visits (root c : PageId) (n : BeInnerNode K V) (t : Traversal K V) (l : Multiset PageId)
    (s : Sight (BeNode K V)) : Prop where
  queued : Queued root t.queue (c ::ₘ (leafPages t.leafMessages + l)) s
  current : s.held c = some (true, some (.inner n))
  pivots : ∀ p ∈ t.newPivots, p.1 ≤ n.size ∧ p.2.2 ≠ root

namespace Visits

variable {c q : PageId} {n m : BeInnerNode K V} {t : Traversal K V} {l : Multiset PageId} {d : BeNode K V}

omit [LinearOrder K] [BoundedOrder K] [Add V] [Inhabited K] [Inhabited V]

theorem pin (h : Visits root c n t l s) (hnone : s.held q = none) (hq : q ≠ root) :
    Visits root c n t (q ::ₘ l) (s.put q d) := by
  refine ⟨(h.queued.pin hnone hq).congr ?_, ?_, h.pivots⟩
  · simp only [← Multiset.singleton_add]
    abel
  · rw [Sight.put_ne (Sight.ne_of_held h.current hnone)]
    exact h.current

theorem mem (hq : q ∈ l) : q ∈ c ::ₘ (leafPages t.leafMessages + l) :=
  Multiset.mem_cons_of_mem (Multiset.mem_add.mpr (.inr hq))

theorem ne_current (h : Visits root c n t l s) (hq : q ∈ l) : c ≠ q := by
  have hnodup := (Multiset.nodup_add.mp h.queued.owned.nodup).2.1
  rintro rfl
  exact (Multiset.nodup_cons.mp hnodup).1 (Multiset.mem_add.mpr (.inr hq))

theorem put (h : Visits root c n t l s) (hq : q ∈ l) : Visits root c n t l (s.put q d) := by
  refine ⟨h.queued.put (mem hq), ?_, h.pivots⟩
  rw [Sight.put_ne (h.ne_current hq)]
  exact h.current

/-- The rest of the pages in work as the rules for the queue have it. -/
theorem in_work (h : Visits root c n t (q ::ₘ l) s) :
    Queued root t.queue (q ::ₘ c ::ₘ (leafPages t.leafMessages + l)) s := by
  refine h.queued.congr ?_
  simp only [← Multiset.singleton_add]
  abel

theorem drop (h : Visits root c n t (q ::ₘ l) s) : Visits root c n t l (s.drop root q) := by
  refine ⟨h.in_work.drop, ?_, h.pivots⟩
  rw [Sight.drop_held_ne (h.ne_current (Multiset.mem_cons_self q l))]
  exact h.current

/-- A page goes to the queue. -/
theorem push {map : MessageMap K V} (h : Visits root c n t (q ::ₘ l) s)
    (hm : s.held q = some (true, some (.inner m))) (hmap : ∀ x ∈ map, x.1 ≤ m.size) :
    Visits root c n { t with queue := t.queue ++ [(q, map)] } l s :=
  ⟨h.in_work.push hm hmap, h.current, h.pivots⟩

/-- The pages of a leaf child wait for its messages. -/
theorem wait {us : List (Upsert K V)} {split : Option (K × PageId)}
    (h : Visits root c n t (q ::ₘ (split.elim 0 fun p => {p.2}) + l) s) :
    Visits root c n { t with leafMessages := t.leafMessages ++ [(q, split, us)] } l s := by
  refine ⟨h.queued.congr ?_, h.current, h.pivots⟩
  rw [leafPages_append]
  simp only [← Multiset.singleton_add]
  abel

/-- The node is to take a pivot. -/
theorem pivot {i : ℕ} {mid : K} {right : PageId} (h : Visits root c n t l s) (hi : i ≤ n.size) (hright : right ≠ root) :
    Visits root c n { t with newPivots := t.newPivots ++ [(i, mid, right)] } l s := by
  refine ⟨h.queued, h.current, ?_⟩
  intro p hp
  rcases List.mem_append.mp hp with hp | hp
  · exact h.pivots p hp
  · obtain rfl := List.mem_singleton.mp hp
    exact ⟨hi, hright⟩

end Visits

variable {c child : PageId} {n : BeInnerNode K V} {t : Traversal K V} {i : ℕ} {us : List (Upsert K V)}

omit [Add V] in
theorem minds_handleLeafChild {m : BeLeafNode K V} (hs : Visits root c n t {child} s)
    (hheld : s.held child = some (true, some (.leaf m))) (hi : i ≤ n.size) :
    Minds layout root (handleLeafChild N O i us child m t) s fun t' s' => Visits root c n t' 0 s' := by
  have hroot : child ≠ root := hs.queued.ne_root (Visits.mem (Multiset.mem_singleton_self child))
  have hset : s.Settled layout root := hs.queued.below.settled
  simp only [handleLeafChild, Prog.bind_def, Prog.pure_def]
  split_ifs
  · refine minds_medianKeyOf hset.calm fun key => minds_splitLeafNode hset hheld (fun h => absurd h hroot) ?_
    intro right mid left r hright hnone _
    refine always_ret (Visits.pivot (Visits.wait ?_) hi hright)
    have h := (hs.pin (d := .leaf r) hnone hright).put (q := child) (d := .leaf left)
      (Multiset.mem_cons_of_mem (Multiset.mem_singleton_self child))
    refine ⟨h.queued.congr ?_, h.current, h.pivots⟩
    simp only [Option.elim, ← Multiset.singleton_add]
    abel
  · refine always_ret (Visits.wait ?_)
    refine ⟨hs.queued.congr ?_, hs.current, hs.pivots⟩
    simp only [Option.elim, ← Multiset.singleton_add]
    abel

omit [BoundedOrder K] [Inhabited K] [Inhabited V] in
/-- An inner child keeps its messages, or goes to the queue with indices of its own children. -/
theorem minds_handleInnerChild {m : BeInnerNode K V} (hs : Visits root c n t {child} s)
    (hheld : s.held child = some (true, some (.inner m))) (hm : ∀ i ≤ m.size, m.children i ≠ root) (hi : i ≤ n.size) :
    Minds layout root (handleInnerChild N O i us child m t) s fun t' s' => Visits root c n t' 0 s' := by
  have hmem : child ∈ ({child} : Multiset PageId) := Multiset.mem_singleton_self child
  have hroot : child ≠ root := hs.queued.ne_root (Visits.mem hmem)
  have hset : s.Settled layout root := hs.queued.below.settled
  simp only [handleInnerChild, Prog.bind_def, Prog.pure_def]
  split_ifs
  · refine minds_write hheld (fun h => absurd h hroot) (refers_inner hm) (minds_check hset.due ?_)
    have h : ∀ d, Visits root c n t {child} (s.put child d) := fun d => hs.put hmem
    exact minds_unpinPage (h _).queued.below.settled (always_ret (h _).drop)
  refine minds_removeMessages hset hroot hheld fun m' map hsize hmap hlen => ?_
  have hs₁ : Visits root c n t {child} (s.put child (.inner m')) := hs.put hmem
  have hset₁ : (s.put child (.inner m')).Settled layout root := hs₁.queued.below.settled
  have hperm := O.traverse_perm map
  split_ifs with hsplit
  · have h3 := N.inner_ge
    -- a node without pivots has one child, so that its map has one entry at most
    have hpos : 1 ≤ m'.size := by
      rcases Nat.eq_zero_or_pos m.size with h0 | h0
      · have := hlen h0
        omega
      · omega
    refine minds_splitInnerNode hset₁ hroot Sight.put_self hpos fun right mid left r hright hnone hsum => ?_
    set s₂ := ((s.put child (.inner m')).put right (.inner r)).put child (.inner left) with hs₂
    have hne : child ≠ right := Sight.ne_of_held Sight.put_self hnone
    have hv : Visits root c n t (right ::ₘ {child}) s₂ :=
      (hs₁.pin hnone hright).put (Multiset.mem_cons_of_mem hmem)
    have hset₂ : s₂.Settled layout root := hv.queued.below.settled
    refine minds_asInner hset₂.calm fun left' _ hleft => ?_
    obtain rfl : left = left' := by simpa using hleft true _ Sight.put_self (.inl rfl)
    refine minds_check hset₂.due (minds_check hset₂.due ?_)
    have hindex : ∀ x ∈ O.traverse map, x.1 ≤ m'.size := by
      intro x hx
      rw [hsize]
      exact hmap x (hperm.mem_iff.mp hx)
    obtain ⟨hl, hr⟩ := @splitMap_index_le _ _ _ left.size _ hindex
    have hq₁ : Queued root t.queue (child ::ₘ right ::ₘ c ::ₘ leafPages t.leafMessages) s₂ := by
      refine hv.queued.congr ?_
      simp only [← Multiset.singleton_add]
      abel
    refine minds_enqueue hq₁ Sight.put_self hl fun queue₁ s₃ hq₂ hsame₁ => ?_
    have hheld₃ : s₃.held right = some (true, some (.inner r)) := by
      rw [hsame₁ right (Multiset.mem_cons_self _ _), hs₂, Sight.put_ne (Ne.symm hne), Sight.put_self]
    refine minds_enqueue hq₂ hheld₃ ?_ fun queue₂ s₄ hq₃ hsame₂ => ?_
    · intro x hx
      have := hr x hx
      omega
    have hc₁ := hsame₁ c (Multiset.mem_cons_of_mem (Multiset.mem_cons_self _ _))
    have hc₂ := hsame₂ c (Multiset.mem_cons_self _ _)
    have hv' : Visits root c n { t with queue := queue₂ } 0 s₄ := by
      refine ⟨hq₃.congr ?_, ?_, hv.pivots⟩
      · rw [Multiset.add_zero]
      · rw [hc₂, hc₁]
        exact hv.current
    exact always_ret (hv'.pivot hi hright)
  · refine always_ret (Visits.push hs₁ Sight.put_self ?_)
    intro x hx
    rw [hsize]
    exact hmap x hx

/-- The child is another page than the root page and those that are latched. -/
theorem minds_handleChild (hs : Visits root c n t 0 s) (hn : ∀ i ≤ n.size, n.children i ≠ root) (hi : i ≤ n.size) :
    Minds layout root (handleChild N O n t (i, us)) s fun t' s' => Visits root c n t' 0 s' := by
  simp only [handleChild, Prog.bind_def]
  refine minds_check hs.queued.below.due (minds_pinFixed (hn i hi) hs.queued.below.settled fun hnone o => ?_)
  refine minds_read fun d hrefers hd => ?_
  obtain rfl := hd true o Sight.hold_self (.inl rfl)
  have hs' : Visits root c n t {n.children i} (s.put (n.children i) d) := hs.pin hnone (hn i hi)
  cases d with
  | leaf m => exact minds_handleLeafChild hs' Sight.put_self hi
  | inner m => exact minds_handleInnerChild hs' Sight.put_self (fun j hj => hrefers _ ⟨j, hj, rfl⟩) hi
  | root m => exact always_call hs'.queued.below.settled.calm fun b => b.elim

variable {queue : List (PageId × MessageMap K V)} {l : Multiset PageId}

omit [BoundedOrder K] [DecidableEq V] [Add V] [Inhabited K] [Inhabited V] in
/-- The half of a leaf child that a message goes to is one of its pages. -/
theorem messageTarget_mem {key : K} (hchild : child ∈ l) : ∀ split : Option (K × PageId), (∀ p ∈ split, p.2 ∈ l) →
    (match split with
      | some (middleKey, rightPage) => if middleKey < key then rightPage else child
      | none => child) ∈ l := by
  intro split hright
  cases split with
  | none => exact hchild
  | some p =>
    dsimp only
    split_ifs
    · exact hright p rfl
    · exact hchild

omit [BoundedOrder K] [Inhabited K] [Inhabited V] in
/-- A message changes one page of a leaf child. -/
theorem minds_performMessage {split : Option (K × PageId)} {u : Upsert K V} (hs : Queued root queue l s)
    (hchild : child ∈ l) (hright : ∀ p ∈ split, p.2 ∈ l) :
    Minds layout root (performMessage N child split u) s fun _ s' => Queued root queue l s' := by
  have hcalm : s.Calm layout root := hs.below.settled.calm
  have hwrite : ∀ p ∈ l, ∀ m : BeLeafNode K V, Minds layout root (PageProg.write p (.leaf m)) s
      fun _ s' => Queued root queue l s' := by
    intro p hp m
    obtain ⟨d, hd⟩ := hs.held hp
    exact minds_write_last hd (fun h => absurd h (hs.ne_root hp)) refers_leaf (hs.put hp)
  simp only [performMessage, Prog.bind_def, Prog.pure_def]
  refine minds_asLeaf hcalm fun m _ => ?_
  cases u.type with
  | DELETE =>
    dsimp only
    split_ifs
    · exact hwrite _ (messageTarget_mem hchild split hright) _
    · exact always_ret hs
  | UPDATE =>
    dsimp only
    split_ifs
    · exact hwrite _ (messageTarget_mem hchild split hright) _
    · exact always_ret hs
  | INSERT =>
    dsimp only
    split_ifs
    · exact hwrite _ (messageTarget_mem hchild split hright) _
    · exact minds_check hs.below.due (minds_check hs.below.due (hwrite _ (messageTarget_mem hchild split hright) _))
  | INVALID => exact always_ret hs

omit [BoundedOrder K] [Inhabited K] [Inhabited V] in
/-- The pages of a leaf child are released when its messages have been applied. -/
theorem minds_handleLeafMessages {m : PageId × Option (K × PageId) × List (Upsert K V)}
    (hs : Queued root queue ((m.1 ::ₘ (m.2.1.elim 0 fun split => {split.2})) + l) s) :
    Minds layout root (handleLeafMessages N m) s fun _ s' => Queued root queue l s' := by
  obtain ⟨child, split, us⟩ := m
  dsimp only at hs
  simp only [handleLeafMessages, Prog.bind_def, Prog.pure_def]
  refine always_bind ((always_forFold (fun _ _ s => Queued root queue _ s) ?_ hs).mono ?_)
  · intro u us _ s hs
    refine minds_performMessage hs (Multiset.mem_add.mpr (.inl (Multiset.mem_cons_self _ _))) ?_
    rintro p rfl
    exact Multiset.mem_add.mpr (.inl (Multiset.mem_cons_of_mem (Multiset.mem_singleton_self _)))
  intro _ s hs
  rw [Multiset.cons_add] at hs
  refine minds_unpinPage hs.below.settled ?_
  cases split with
  | none => exact always_ret (hs.drop.congr (Multiset.zero_add l))
  | some p =>
    have h := hs.drop.congr (Multiset.singleton_add _ _)
    exact minds_unpinPage_last h.below.settled h.drop

/-- The page of the inner node is released, and the pages of the new queue are latched. -/
theorem minds_handleTraversalNode {map : MessageMap K V} (hs : Queued root ((page, map) :: queue) 0 s) :
    Minds layout root (handleTraversalNode N O page map queue) s fun queue' s' => Queued root queue' 0 s' := by
  obtain ⟨n, hpage, hmap⟩ := hs.entries _ List.mem_cons_self
  dsimp only at hpage hmap
  have hset : s.Settled layout root := hs.below.settled
  simp only [handleTraversalNode, Prog.bind_def, Prog.pure_def]
  refine minds_asInner hset.calm fun n' hchildren hn => ?_
  obtain rfl : n = n' := by simpa using hn true _ hpage (.inl rfl)
  refine always_bind ((always_forFold (fun rest t s => (∀ x ∈ rest, x.1 ≤ n.size) ∧ Visits root page n t 0 s)
    ?_ ⟨fun x hx => hmap x ((O.traverse_perm map).mem_iff.mp hx), hs.pop, hpage,
      fun p hp => absurd hp List.not_mem_nil⟩).mono ?_)
  · rintro ⟨i, us⟩ rest t s ⟨hrest, hv⟩
    refine (minds_handleChild hv hchildren (hrest (i, us) List.mem_cons_self)).mono ?_
    intro t' s' hv'
    exact ⟨fun x hx => hrest x (List.mem_cons_of_mem _ hx), hv'⟩
  rintro t s ⟨-, hv⟩
  have hmem : page ∈ page ::ₘ (leafPages t.leafMessages + 0) := Multiset.mem_cons_self _ _
  have hpr : page ≠ root := hv.queued.ne_root hmem
  refine minds_check hv.queued.below.due (minds_write hv.current (fun h => absurd h hpr) (refers_inner ?_) ?_)
  · exact insertPivots_children (P := fun p => p ≠ root) hchildren (fun p hp => (hv.pivots p hp).1) fun p hp =>
      (hv.pivots p hp).2
  have hq : ∀ d, Queued root t.queue (page ::ₘ (leafPages t.leafMessages + 0)) (s.put page d) :=
    fun d => hv.queued.put hmem
  refine minds_unpinPage (hq _).below.settled ?_
  refine always_bind ((always_forFold (fun jobs _ s => Queued root t.queue (leafPages jobs + 0) s) ?_
    (hq _).drop).mono ?_)
  · intro m ms _ s hs
    refine minds_handleLeafMessages (hs.congr ?_)
    rw [leafPages, leafPages, List.map_cons, List.sum_cons, Multiset.add_assoc]
  · intro _ s hs
    exact always_ret hs

/-- The flush ends with its pages released. -/
theorem minds_iter_traverseQueue (hs : Queued root queue 0 s) :
    Minds layout root (Prog.iter (traverseQueue N O) queue) s fun _ s' => s'.Below root := by
  refine always_loop (fun queue s => Queued root queue 0 s) ?_ hs
  intro queue s hs
  cases queue with
  | nil => exact always_ret (always_ret hs.below)
  | cons m queue =>
    obtain ⟨page, map⟩ := m
    simp only [traverseQueue, Prog.bind_def, Prog.pure_def]
    refine always_bind ((minds_handleTraversalNode hs).mono ?_)
    intro queue' s' hs'
    exact always_ret hs'

end Flush

end BEpsilon.BeTree
