import BEpsilon.BTree.Leaf
import BEpsilon.Buffer.PageLogic

/-!
# BEpsilon.BTree.Insert — correctness of `insert`

Rules for the routines of `insert` on the ideal store, then the two descents.  The optimistic one
leaves the tree alone when it gives up; the exclusive one splits full nodes on the way and always
puts the pair.  `AtRest` is the state between two operations: the tree invariant holds, no page is
pinned and every changed page was released dirty.
-/

namespace BEpsilon.BTree

open Slots PageWorld

variable {K V α : Type} [LinearOrder K] [Inhabited K] [Inhabited V]
variable {N : NodeSizes} {R : PageRules}

/-- The world between two operations of a tree that holds the map `L` below the page `root`. -/
structure AtRest (R : PageRules) (N : NodeSizes) (root : PageId) (L : K → Option V)
    (w : PageWorld (BNode K V) Header) : Prop where
  tree : ∃ H pg, TreeInv R.ids N w.mem w.header w.created H pg L
  rootID : w.header.rootID = root
  pins : w.pins = []
  kept : w.kept

section Rules

variable {mem : PageId → Option (BNode K V)} {created : ℕ} {header : Header}
  {pins : List (PageId × Option (BNode K V))} {recent : List PageId} {kept : Prop} {page : PageId}
  {Q : α → PageWorld (BNode K V) Header → Prop}

omit [LinearOrder K] [Inhabited K] [Inhabited V] in
theorem runs_asLeaf {n : BLeafNode K V} {f : BLeafNode K V → BProg K V α}
    (hm : mem page = some (.leaf n)) (hr : (∃ s, (page, s) ∈ pins) ∨ page ∈ recent)
    (h : Runs (handler R) (f n) ⟨mem, created, header, pins, recent, kept⟩ Q) :
    Runs (handler R) ((asLeaf page).bind f) ⟨mem, created, header, pins, recent, kept⟩ Q :=
  runs_read hm hr h

omit [LinearOrder K] [Inhabited K] [Inhabited V] in
theorem runs_asInner {n : BInnerNode K} {f : BInnerNode K → BProg K V α}
    (hm : mem page = some (.inner n)) (hr : (∃ s, (page, s) ∈ pins) ∨ page ∈ recent)
    (h : Runs (handler R) (f n) ⟨mem, created, header, pins, recent, kept⟩ Q) :
    Runs (handler R) ((asInner page).bind f) ⟨mem, created, header, pins, recent, kept⟩ Q :=
  runs_read hm hr h

variable (hpage : ∃ s, (page, s) ∈ pins) (hfresh : mem (R.ids created) = none)
  (hpins : ∀ p ∈ pins, p.1 ≠ R.ids created) (hlim : ∀ n ∈ R.limit, pins.length < n)
include hpage hfresh hpins hlim

omit [LinearOrder K] in
theorem runs_splitLeafNode {n : BLeafNode K V} {f : PageId × K → BProg K V α}
    (hm : mem page = some (.leaf n)) (h2 : 2 ≤ n.size)
    (h : Runs (handler R) (f (R.ids created, n.middleKey))
      ⟨Function.update (Function.update mem (R.ids created) (some (.leaf n.rightHalf))) page
        (some (.leaf n.leftHalf)), created + 1, header, (R.ids created, none) :: pins, [], kept⟩ Q) :
    Runs (handler R) ((splitLeafNode page).bind f)
      ⟨mem, created, header, pins, recent, kept⟩ Q := by
  simp only [splitLeafNode, Prog.bind_def, Prog.pure_def, Prog.bind_assoc, Prog.ret_bind]
  refine runs_asLeaf hm (.inl hpage) (runs_check (by simp [h2]) (runs_createPage ?_))
  refine runs_pinPage hpins hlim (by simp [hfresh]) ⟨created, by omega, rfl⟩ ?_
  refine runs_write ⟨_, List.mem_cons_self⟩ (runs_write ?_ ?_)
  · obtain ⟨s, hs⟩ := hpage
    exact ⟨s, List.mem_cons_of_mem _ hs⟩
  · rw [hfresh]
    exact h

/-- The right half that `splitInnerNode` makes. -/
def BInnerNode.rightHalf (n : BInnerNode K) : BInnerNode K :=
  ⟨Fanout.dropPiv n.pivots n.size ((n.size - 1) / 2) fun _ => default,
    Fanout.dropCh n.children n.size ((n.size - 1) / 2) fun _ => 0, n.size - ((n.size - 1) / 2 + 1)⟩

/-- The left half: the same slots with a smaller size. -/
def BInnerNode.leftHalf (n : BInnerNode K) : BInnerNode K := { n with size := (n.size - 1) / 2 }

omit [LinearOrder K] [Inhabited V] in
theorem runs_splitInnerNode {n : BInnerNode K} {f : PageId × K → BProg K V α}
    (hm : mem page = some (.inner n)) (h2 : 2 ≤ n.size)
    (h : Runs (handler R) (f (R.ids created, n.pivots ((n.size - 1) / 2)))
      ⟨Function.update (Function.update mem (R.ids created) (some (.inner n.rightHalf))) page
        (some (.inner n.leftHalf)), created + 1, header, (R.ids created, none) :: pins, [], kept⟩ Q) :
    Runs (handler R) ((splitInnerNode page).bind f)
      ⟨mem, created, header, pins, recent, kept⟩ Q := by
  have hsize : n.size / 2 = n.size - ((n.size - 1) / 2 + 1) := by omega
  have hleft : n.size - n.size / 2 - 1 = (n.size - 1) / 2 := by omega
  simp only [splitInnerNode, Prog.bind_def, Prog.pure_def, Prog.bind_assoc, Prog.ret_bind]
  refine runs_asInner hm (.inl hpage) (runs_check (by simp [h2]) (runs_createPage ?_))
  refine runs_pinPage hpins hlim (by simp [hfresh]) ⟨created, by omega, rfl⟩ ?_
  refine runs_write ⟨_, List.mem_cons_self⟩ (runs_write ?_ ?_)
  · obtain ⟨s, hs⟩ := hpage
    exact ⟨s, List.mem_cons_of_mem _ hs⟩
  · rw [hfresh, hleft, hsize]
    exact h

omit [LinearOrder K] [Inhabited V] in
theorem runs_createRoot {mid : K} {right : PageId} {d : BNode K V} {f : PageId → BProg K V α}
    (hm : mem page = some d)
    (h : Runs (handler R) (f (R.ids created))
      ⟨Function.update (Function.update mem (R.ids created) (some d)) page
        (some (.inner (newRootNode mid (R.ids created) right))), created + 1, header,
        (R.ids created, none) :: pins, [], kept⟩ Q) :
    Runs (handler R) ((createRoot mid page right).bind f)
      ⟨mem, created, header, pins, recent, kept⟩ Q := by
  simp only [createRoot, Prog.bind_def, Prog.pure_def, Prog.bind_assoc, Prog.ret_bind]
  refine runs_createPage (runs_pinPage hpins hlim (by simp [hfresh]) ⟨created, by omega, rfl⟩ ?_)
  have hp : ∃ s, (page, s) ∈ (R.ids created, mem (R.ids created)) :: pins := by
    obtain ⟨s, hs⟩ := hpage
    exact ⟨s, List.mem_cons_of_mem _ hs⟩
  refine runs_read hm (.inl hp) (runs_write ⟨_, List.mem_cons_self⟩ (runs_write hp ?_))
  rw [hfresh]
  exact h

end Rules

section Put

variable [DecidableEq V] {mem : PageId → Option (BNode K V)} {created : ℕ} {header : Header}
  {recent : List PageId} {page : PageId} {Q : Bool → PageWorld (BNode K V) Header → Prop}

omit [Inhabited K] [Inhabited V] in
/-- The end of `insertTraversal`, with the key index of the target leaf and a `keyIt` that still
answers as the target leaf does. -/
theorem runs_performInsert {key : K} {value : V} {itPage : PageId} {itIndex : ℕ} {split : Bool}
    {t it : BLeafNode K V} {s : Option (BNode K V)} {keyIndex : ℕ}
    (hm : mem page = some (.leaf t)) (ht : LeafOk N t) (hidx : keyIndex = t.index key)
    (hroom : t.get key = none → t.size < N.LEAF_N)
    (hit : mem itPage = some (.leaf it)) (hitr : itPage = page ∨ itPage ∈ recent)
    (hkey : t.index key < t.size → it.keys itIndex = t.keys (t.index key))
    (hs : split = true ∨ mem page = s)
    (h : ∀ t' recent', LeafSet N t t' key (some value) → Q true
      ⟨Function.update mem page (some (.leaf t')), created, header, [], recent', True⟩) :
    Runs (handler R) (performInsert key value itPage itIndex page keyIndex split)
      ⟨mem, created, header, [(page, s)], recent, True⟩ Q := by
  subst hidx
  have hsome : (mem page).isSome := by simp [hm]
  have hput : ∀ d : BNode K V, (Function.update mem page (some d) page).isSome := by simp
  -- the pair is put at a new index
  have hins : ¬ (t.index key < t.size ∧ t.keys (t.index key) = key) →
      Runs (handler R) ((PageProg.write page (.leaf (t.insertPair (t.index key) key value))).bind
        fun _ => (PageProg.unpinPage page true).bind fun _ => .ret true)
        ⟨mem, created, header, [(page, s)], recent, True⟩ Q := by
    intro hk
    refine runs_write ⟨s, List.mem_singleton_self _⟩ (runs_unpin_head (hput _) (.inl rfl)
      (runs_ret (h _ _ ?_)))
    exact LeafSet.insertPair ht hk (hroom (ht.get_eq_none hk))
  simp only [performInsert, Prog.bind_def, Prog.pure_def, Prog.ret_bind, Bool.false_eq_true, if_false]
  refine runs_asLeaf hm (.inl ⟨s, by simp⟩) ?_
  split
  next hlt =>
    refine runs_peek hit (hitr.imp (fun e => ⟨s, by simp [e]⟩) id) ?_
    simp only [keyAt, hkey hlt, beq_iff_eq]
    split
    next hk =>
      split
      next hv =>
        refine runs_unpin_head hsome hs (runs_ret ?_)
        have h' := h t (page :: recent) (by
          rw [← hv, ← LeafOk.get_eq_some ⟨hlt, hk⟩]
          exact LeafSet.same ht key)
        rwa [show Function.update mem page (some (.leaf t)) = mem by
          rw [← hm]; exact Function.update_eq_self _ _] at h'
      next hv =>
        refine runs_write ⟨s, List.mem_singleton_self _⟩ (runs_unpin_head (hput _) (.inl rfl)
          (runs_ret (h _ _ ?_)))
        exact LeafSet.overwrite ht ⟨hlt, hk⟩
    next hk => exact hins fun hc => hk hc.2
  next hlt => exact hins fun hc => hlt hc.1

end Put

/-! ### The steps of a descent -/

section Traversal

variable [DecidableEq V] {mem : PageId → Option (BNode K V)} {created H : ℕ} {header : Header}
  {pg : ℕ → K → PageId} {L : K → Option V}

/-- The exclusive descent towards `key` stands above height `n`: it holds the page of height `n + 1`,
which is not full. -/
structure Descent (R : PageRules) (N : NodeSizes) (root : PageId) (L : K → Option V) (key : K)
    (n : ℕ) (s : PageId × Bool) (w : PageWorld (BNode K V) Header) : Prop where
  tree : ∃ H pg, TreeInv R.ids N w.mem w.header w.created H pg L ∧ n + 1 ≤ H ∧
    s.1 = pg (n + 1) key
  room : ∃ np, w.mem s.1 = some (.inner np) ∧ np.size < N.INNER_N
  pins : ∃ snap, w.pins = [(s.1, snap)] ∧ (s.2 = true ∨ w.mem s.1 = snap)
  rootID : w.header.rootID = root
  kept : w.kept = True

variable (hlim : ∀ n ∈ R.limit, 3 ≤ n)
include hlim

omit [LinearOrder K] [Inhabited K] [Inhabited V] [DecidableEq V] in
theorem le_limit {l : List (PageId × Option (BNode K V))} (hl : l.length < 3) :
    ∀ n ∈ R.limit, l.length < n := fun n hn => lt_of_lt_of_le hl (hlim n hn)

omit hlim [Inhabited K] [Inhabited V] [DecidableEq V] in
/-- What `TreeInv.put` gives once the last page is released. -/
theorem atRest_put (recent : List PageId) {key : K} {o : Option V} {t t' : BLeafNode K V}
    {page : PageId} (hT : TreeInv R.ids N mem header created H pg L) (hp : page = pg 0 key)
    (ht : mem page = some (.leaf t)) (hs : LeafSet N t t' key o) :
    AtRest R N header.rootID (Function.update L key o)
      ⟨Function.update mem page (some (.leaf t')), created, header, [], recent, True⟩ := by
  subst hp
  exact ⟨⟨H, pg, hT.put ht hs⟩, rfl, rfl, trivial⟩

/-- The full leaf case of `insertTraversal`, with exclusive latches. -/
theorem runs_insertIntoLeaf_split (hT : TreeInv R.ids N mem header created H pg L) (hH : 0 < H)
    {key : K} {value : V} {dirty : Bool} {np : BInnerNode K} {t : BLeafNode K V}
    {snap : Option (BNode K V)} (hnp : mem (pg 1 key) = some (.inner np))
    (hroom : np.size < N.INNER_N) (ht : mem (pg 0 key) = some (.leaf t)) (hfull : t.size = N.LEAF_N) :
    Runs (handler R) (insertIntoLeaf N key value true (pg 1 key) dirty np
        (lowerBound np.pivots np.size key) (pg 0 key) t)
      ⟨mem, created, header, [(pg 0 key, mem (pg 0 key)), (pg 1 key, snap)], [], True⟩
      fun b w => b = true ∧ AtRest R N header.rootID (Function.update L key (some value)) w := by
  have h2 : 2 ≤ t.size := hfull ▸ N.leaf_ge
  have hok : LeafOk N t := hT.nodes _ _ ht
  have hhalf := hok.halves h2
  have hne : pg 1 key ≠ pg 0 key := hT.routed.page_ne (by omega) (by omega) (by omega)
  have hr0 : R.ids created ≠ pg 0 key := (hT.fresh_page R.ids_inj le_rfl (by omega) key).symm
  have hr1 : R.ids created ≠ pg 1 key := (hT.fresh_page R.ids_inj le_rfl (by omega) key).symm
  have hkeys : ∀ i < t.size, pg 0 (t.keys i) = pg 0 key := by
    obtain ⟨t₀, ht₀, -, hk⟩ := hT.leaf_page key
    obtain rfl := by simpa using ht₀.symm.trans ht
    exact fun i hi => hk _ ⟨i, hi, rfl⟩
  -- the memory after the split and the tree in it
  let mem₁ := Function.update (Function.update (Function.update mem (R.ids created)
    (some (.leaf t.rightHalf))) (pg 0 key) (some (.leaf t.leftHalf))) (pg 1 key)
    (some (.inner (np.insertPivot (lowerBound np.pivots np.size key) t.middleKey (R.ids created))))
  have hm1 : mem₁ (pg 1 key) = some (.inner
      (np.insertPivot (lowerBound np.pivots np.size key) t.middleKey (R.ids created))) := by
    simp [mem₁]
  have hm0 : mem₁ (pg 0 key) = some (.leaf t.leftHalf) := by simp [mem₁, hne.symm]
  have hmr : mem₁ (R.ids created) = some (.leaf t.rightHalf) := by simp [mem₁, hr0, hr1]
  have hT₁ : TreeInv R.ids N mem₁ header (created + 1) H
      (Routed.splitPg pg 0 (pg 0 key) (R.ids created) t.middleKey) L := by
    refine hT.split_leaf R.ids_inj hH hnp hroom ht (hkeys _ (by omega))
      ⟨t.keys ((t.size - 1) / 2 + 1), hkeys _ (by omega), hok.sorted _ _ (by omega) (by omega)⟩
      hm1 hm0 hmr (fun id h₁ h₂ h₃ => ?_) hhalf.left_ok hhalf.right_ok hhalf.left_keys
      hhalf.right_keys hhalf.left_get hhalf.right_get
    simp [mem₁, h₁, h₂, h₃]
  simp only [insertIntoLeaf, Prog.bind_def]
  refine runs_check (by simp [hfull]) ?_
  rw [if_pos hfull, if_neg (by simp)]
  refine runs_splitLeafNode ⟨_, List.mem_cons_self⟩ (hT.fresh_mem R.ids_inj le_rfl)
    (by simp [hr0.symm, hr1.symm]) (le_limit hlim (by simp)) ht h2 ?_
  refine runs_write ⟨snap, by simp⟩ (runs_unpin_third hr1 hne.symm (by simp) (.inl rfl) ?_)
  split
  next hk =>
    -- the left half is the target
    obtain ⟨hidx, -⟩ := LeafOk.index_left h2 hk
    refine runs_unpin_head (by simp [hr0, hr1]) (.inl rfl) ?_
    refine runs_performInsert hm0 hhalf.left_ok hidx.symm (fun _ => hhalf.left_lt) hm0 (.inl rfl)
      (fun _ => by rw [hidx]; rfl) (.inl rfl) fun t' recent' hs => ⟨rfl, ?_⟩
    exact atRest_put _ hT₁ (by rw [Routed.splitPg_left hk]) hm0 hs
  next hk =>
    -- the right half is the target, with the index moved
    have hk' := not_le.mp hk
    obtain ⟨hidx, hge⟩ := hok.index_right h2 hk'
    have hright : Routed.splitPg pg 0 (pg 0 key) (R.ids created) t.middleKey 0 key = R.ids created :=
      Routed.splitPg_right rfl hk'
    refine runs_asLeaf hm0 (.inl ⟨_, by simp; exact .inr rfl⟩) ?_
    refine runs_unpin_second hr0 (by simp [hne.symm]) (.inl rfl) ?_
    refine runs_performInsert hmr hhalf.right_ok hidx.symm (fun _ => hhalf.right_lt) hm0
      (.inr (by simp)) (fun hlt => hok.keys_index_right h2 hk' hlt) (.inl rfl)
      fun t' recent' hs => ⟨rfl, ?_⟩
    exact atRest_put _ hT₁ hright.symm hmr hs

omit hlim in
/-- The leaf case of `insertTraversal` when the leaf has room. -/
theorem runs_insertIntoLeaf_room (hT : TreeInv R.ids N mem header created H pg L)
    {key : K} {value : V} {exclusiveMode dirty : Bool} {np : BInnerNode K} {t : BLeafNode K V}
    {parent : PageId} {pivotIndex : ℕ} {recent : List PageId}
    {Q : Bool → PageWorld (BNode K V) Header → Prop}
    (ht : mem (pg 0 key) = some (.leaf t)) (hroom : t.size ≠ N.LEAF_N)
    (hQ : ∀ w, AtRest R N header.rootID (Function.update L key (some value)) w → Q true w)
    {pins : List (PageId × Option (BNode K V))}
    (hpins : if exclusiveMode = true then ∃ snap, pins = [(parent, snap)] ∧ parent ≠ pg 0 key ∧
      (mem parent).isSome ∧ (dirty = true ∨ mem parent = snap) else pins = []) :
    Runs (handler R) (insertIntoLeaf N key value exclusiveMode parent dirty np pivotIndex (pg 0 key) t)
      ⟨mem, created, header, (pg 0 key, mem (pg 0 key)) :: pins, recent, True⟩ Q := by
  have hok : LeafOk N t := hT.nodes _ _ ht
  have hput : ∀ recent, Runs (handler R) (performInsert key value (pg 0 key)
      (lowerBound t.keys t.size key) (pg 0 key) (lowerBound t.keys t.size key) false)
      ⟨mem, created, header, [(pg 0 key, mem (pg 0 key))], recent, True⟩ Q := fun recent =>
    runs_performInsert ht hok rfl (fun _ => lt_of_le_of_ne hok.size_le hroom) ht (.inl rfl)
      (fun _ => rfl) (.inr rfl) fun t' recent' hs => hQ _ (atRest_put _ hT rfl ht hs)
  simp only [insertIntoLeaf, Prog.bind_def]
  refine runs_check (by simp [hok.size_le]) ?_
  rw [if_neg hroom]
  cases exclusiveMode with
  | false =>
    obtain rfl : pins = [] := by simpa using hpins
    exact hput recent
  | true =>
    obtain ⟨snap, rfl, hne, hsome, hd⟩ := by simpa only [if_true] using hpins
    exact runs_unpin_second hne.symm hsome hd (hput _)

omit [Inhabited V] [DecidableEq V] in
/-- The full inner child case of `insertTraversal`, with exclusive latches. -/
theorem runs_insertBelowInner_split (hT : TreeInv R.ids N mem header created H pg L) {key : K}
    {n : ℕ} (hH : n + 1 < H) {dirty : Bool} {np t : BInnerNode K} {snap : Option (BNode K V)}
    (hnp : mem (pg (n + 1 + 1) key) = some (.inner np)) (hroom : np.size < N.INNER_N)
    (ht : mem (pg (n + 1) key) = some (.inner t)) (hfull : t.size = N.INNER_N) :
    Runs (handler R) (insertBelowInner (V := V) N key true (pg (n + 1 + 1) key) dirty np
        (lowerBound np.pivots np.size key) (pg (n + 1) key) t)
      ⟨mem, created, header, [(pg (n + 1) key, mem (pg (n + 1) key)), (pg (n + 1 + 1) key, snap)],
        [], True⟩
      fun s w => Descent R N header.rootID L key n s w := by
  have h3 : 3 ≤ t.size := hfull ▸ N.inner_ge
  have hle : t.size ≤ N.INNER_N := hfull.le
  have hne : pg (n + 1 + 1) key ≠ pg (n + 1) key :=
    hT.routed.page_ne (by omega) (by omega) (by omega)
  have hr0 : R.ids created ≠ pg (n + 1) key := (hT.fresh_page R.ids_inj le_rfl (by omega) key).symm
  have hr1 : R.ids created ≠ pg (n + 1 + 1) key :=
    (hT.fresh_page R.ids_inj le_rfl (by omega) key).symm
  let mid := t.pivots ((t.size - 1) / 2)
  let mem₁ := Function.update (Function.update (Function.update mem (R.ids created)
    (some (.inner t.rightHalf))) (pg (n + 1) key) (some (.inner t.leftHalf))) (pg (n + 1 + 1) key)
    (some (.inner (np.insertPivot (lowerBound np.pivots np.size key) mid (R.ids created))))
  have hm1 : mem₁ (pg (n + 1 + 1) key) = some (.inner
      (np.insertPivot (lowerBound np.pivots np.size key) mid (R.ids created))) := by
    simp [mem₁]
  have hm0 : mem₁ (pg (n + 1) key) = some (.inner t.leftHalf) := by simp [mem₁, hne.symm]
  have hmr : mem₁ (R.ids created) = some (.inner t.rightHalf) := by simp [mem₁, hr0, hr1]
  have hT₁ : TreeInv R.ids N mem₁ header (created + 1) H
      (Routed.splitPg pg (n + 1) (pg (n + 1) key) (R.ids created) mid) L := by
    refine hT.split_inner R.ids_inj hH hnp hroom ht (by omega) (by omega) hm1 hm0 hmr
      fun id h₁ h₂ h₃ => ?_
    simp [mem₁, h₁, h₂, h₃]
  simp only [insertBelowInner, Prog.bind_def, Prog.pure_def]
  refine runs_check (by simp [hfull]) ?_
  rw [if_pos ⟨hfull, trivial⟩]
  refine runs_splitInnerNode ⟨_, List.mem_cons_self⟩ (hT.fresh_mem R.ids_inj le_rfl)
    (by simp [hr0.symm, hr1.symm]) (le_limit hlim (by simp)) ht (by omega) ?_
  refine runs_write ⟨snap, by simp⟩ (runs_unpin_third hr1 hne.symm (by simp) (.inl rfl) ?_)
  split
  next hk =>
    refine runs_unpin_head (by simp [hr0, hr1]) (.inl rfl) (runs_ret ?_)
    exact ⟨⟨H, _, hT₁, hH.le, by rw [Routed.splitPg_left hk]⟩,
      ⟨_, hm0, by simp only [BInnerNode.leftHalf]; omega⟩, ⟨_, rfl, .inl rfl⟩, rfl, rfl⟩
  next hk =>
    refine runs_unpin_second hr0 (by simp [hne.symm]) (.inl rfl) (runs_ret ?_)
    exact ⟨⟨H, _, hT₁, hH.le, by rw [Routed.splitPg_right rfl (not_le.mp hk)]⟩,
      ⟨_, hmr, by simp only [BInnerNode.rightHalf]; omega⟩, ⟨_, rfl, .inl rfl⟩, rfl, rfl⟩

/-- One round of the exclusive descent. -/
theorem insertTraversal_exclusive {root : PageId} {key : K} {value : V} {n : ℕ}
    {s : PageId × Bool} {w : PageWorld (BNode K V) Header} (hD : Descent R N root L key n s w) :
    Runs (handler R) (insertTraversal N key value true s) w fun r w' =>
      match r with
      | .inl s' => ∃ m < n, Descent R N root L key m s' w'
      | .inr b => b = true ∧ AtRest R N root (Function.update L key (some value)) w' := by
  obtain ⟨p, dirty⟩ := s
  obtain ⟨mem, created, header, pins, recent, kept⟩ := w
  obtain ⟨⟨H, pg, hT, hH, rfl⟩, ⟨np, hnp, hroom⟩, ⟨snap, rfl, hdirty⟩, rfl, rfl⟩ := hD
  simp only at hnp hdirty hT ⊢
  obtain ⟨np', hnp', hnok, hchild⟩ := hT.inner_page (h := n) (by omega) key
  obtain rfl := by simpa using hnp'.symm.trans hnp
  have hcm : mem (pg n key) ≠ none := hT.mem_page (by omega) key
  have hne : pg (n + 1) key ≠ pg n key := hT.routed.page_ne (by omega) (by omega) (by omega)
  have hsome : (mem (pg (n + 1) key)).isSome := by simp [hnp]
  have hcs : (mem (pg n key)).isSome = !false := by simpa [Option.isSome_iff_ne_none] using hcm
  have hpin : ∀ q ∈ [(pg (n + 1) key, snap)], q.1 ≠ pg n key := by simpa using hne
  simp only [insertTraversal, Prog.bind_def, Prog.pure_def]
  refine runs_asInner hnp (.inl ⟨snap, by simp⟩) (runs_check (by simp [hroom]) ?_)
  rw [hchild]
  refine runs_pinPage hpin (le_limit hlim (by simp)) hcs (hT.known _ hcm) ?_
  rw [if_neg (by simp)]
  cases n with
  | zero =>
    obtain ⟨t, ht, -, -⟩ := hT.leaf_page key
    refine runs_read ht (.inl ⟨_, List.mem_cons_self⟩) (runs_bind ?_)
    by_cases hfull : t.size = N.LEAF_N
    · exact (runs_insertIntoLeaf_split hlim hT hH hnp hroom ht hfull).mono
        fun b w' h => runs_ret h
    · refine runs_insertIntoLeaf_room hT ht hfull (fun w' h => runs_ret ⟨rfl, h⟩) ?_
      exact ⟨snap, rfl, hne, hsome, hdirty⟩
  | succ n =>
    obtain ⟨t, ht, htok, -⟩ := hT.inner_page (h := n) (by omega) key
    refine runs_read ht (.inl ⟨_, List.mem_cons_self⟩) (runs_bind ?_)
    by_cases hfull : t.size = N.INNER_N
    · exact (runs_insertBelowInner_split hlim hT hH hnp hroom ht hfull).mono
        fun s' w' h => runs_ret ⟨n, by omega, h⟩
    · simp only [insertBelowInner, Prog.bind_def, Prog.pure_def]
      refine runs_check (by simp [htok.size_le]) ?_
      rw [if_neg (by simp [hfull]), if_pos trivial]
      refine runs_unpin_second hne.symm hsome hdirty (runs_ret (runs_ret ⟨n, by omega, ?_⟩))
      exact ⟨⟨H, pg, hT, by omega, rfl⟩, ⟨t, ht, lt_of_le_of_ne htok.size_le hfull⟩,
        ⟨_, rfl, .inr rfl⟩, rfl, rfl⟩

/-- The exclusive descent puts the pair. -/
theorem iter_insertTraversal_exclusive {root : PageId} {key : K} {value : V} {n : ℕ}
    {s : PageId × Bool} {w : PageWorld (BNode K V) Header} (hD : Descent R N root L key n s w) :
    Runs (handler R) (Prog.iter (insertTraversal N key value true) s) w fun b w' =>
      b = true ∧ AtRest R N root (Function.update L key (some value)) w' := by
  refine runs_loop (fun n s w => Descent R N root L key n s w) (fun n s w hD => ?_) hD
  refine (insertTraversal_exclusive hlim hD).mono ?_
  rintro (s' | b) w' h
  · exact h
  · exact runs_ret h

/-- One round of the optimistic descent from the page of height `n + 1`. -/
theorem insertTraversal_optimistic (hT : TreeInv R.ids N mem header created H pg L) {key : K}
    {value : V} {n : ℕ} (hH : n + 1 ≤ H) {recent : List PageId} {dirty : Bool} :
    Runs (handler R) (insertTraversal N key value false (pg (n + 1) key, dirty))
      ⟨mem, created, header, [(pg (n + 1) key, mem (pg (n + 1) key))], recent, True⟩ fun r w' =>
      match r with
      | .inl s' => ∃ m recent' dirty', n = m + 1 ∧ s' = (pg (m + 1) key, dirty') ∧
          w' = ⟨mem, created, header, [(pg (m + 1) key, mem (pg (m + 1) key))], recent', True⟩
      | .inr true => AtRest R N header.rootID (Function.update L key (some value)) w'
      | .inr false => ∃ recent', w' = ⟨mem, created, header, [], recent', True⟩ := by
  obtain ⟨np, hnp, hnok, hchild⟩ := hT.inner_page (h := n) (by omega) key
  have hcm : mem (pg n key) ≠ none := hT.mem_page (by omega) key
  have hne : pg (n + 1) key ≠ pg n key := hT.routed.page_ne (by omega) (by omega) (by omega)
  have hsome : (mem (pg (n + 1) key)).isSome := by simp [hnp]
  have hcs : (mem (pg n key)).isSome = !false := by simpa [Option.isSome_iff_ne_none] using hcm
  have hpin : ∀ q ∈ [(pg (n + 1) key, mem (pg (n + 1) key))], q.1 ≠ pg n key := by simpa using hne
  simp only [insertTraversal, Prog.bind_def, Prog.pure_def]
  refine runs_asInner hnp (.inl ⟨_, List.mem_cons_self⟩) (runs_check (by simp) ?_)
  rw [hchild]
  refine runs_pinPage hpin (le_limit hlim (by simp)) hcs (hT.known _ hcm) ?_
  rw [if_pos (by simp)]
  refine runs_unpin_second hne.symm hsome (.inr rfl) ?_
  cases n with
  | zero =>
    obtain ⟨t, ht, htok, -⟩ := hT.leaf_page key
    refine runs_read ht (.inl ⟨_, List.mem_cons_self⟩) (runs_bind ?_)
    by_cases hfull : t.size = N.LEAF_N
    · -- a full leaf: give up
      simp only [insertIntoLeaf, Prog.bind_def, Prog.pure_def]
      refine runs_check (by simp [hfull]) ?_
      rw [if_pos hfull, if_pos (by simp)]
      exact runs_unpin_head (by simp [ht]) (.inr rfl) (runs_ret (runs_ret ⟨_, rfl⟩))
    · refine runs_insertIntoLeaf_room hT ht hfull (fun w' h => runs_ret (by exact h)) ?_
      simp
  | succ n =>
    obtain ⟨t, ht, htok, -⟩ := hT.inner_page (h := n) (by omega) key
    refine runs_read ht (.inl ⟨_, List.mem_cons_self⟩) (runs_bind ?_)
    simp only [insertBelowInner, Prog.bind_def, Prog.pure_def]
    refine runs_check (by simp [htok.size_le]) ?_
    rw [if_neg (by simp), if_neg (by simp)]
    exact runs_ret (runs_ret ⟨n, _, false, rfl, rfl, rfl⟩)

/-- The optimistic descent puts the pair or leaves everything as it was. -/
theorem iter_insertTraversal_optimistic (hT : TreeInv R.ids N mem header created H pg L) (key : K)
    (value : V) (recent : List PageId) (dirty : Bool) {n : ℕ} (hH : n + 1 ≤ H) :
    Runs (handler R) (Prog.iter (insertTraversal N key value false) (pg (n + 1) key, dirty))
      ⟨mem, created, header, [(pg (n + 1) key, mem (pg (n + 1) key))], recent, True⟩ fun b w' =>
      if b = true then AtRest R N header.rootID (Function.update L key (some value)) w'
      else ∃ recent', w' = ⟨mem, created, header, [], recent', True⟩ := by
  refine runs_loop (fun n s w => n + 1 ≤ H ∧ ∃ recent dirty, s = (pg (n + 1) key, dirty) ∧
      w = ⟨mem, created, header, [(pg (n + 1) key, mem (pg (n + 1) key))], recent, True⟩)
    ?_ ⟨hH, recent, dirty, rfl, rfl⟩
  rintro n s w ⟨hn, recent, dirty, rfl, rfl⟩
  refine (insertTraversal_optimistic hlim hT hn).mono ?_
  rintro (s' | (_ | _)) w' h
  · obtain ⟨m, recent', dirty', rfl, rfl, rfl⟩ := h
    exact ⟨m, by omega, by omega, recent', dirty', rfl, rfl⟩
  · exact runs_ret (by simpa using h)
  · exact runs_ret (by simpa using h)

end Traversal

end BEpsilon.BTree
