import BEpsilon.Buffer.Pins
import BEpsilon.BeTree.Program

/-!
# BEpsilon.BeTree.Pins — the pins of the Bε-tree's operations

What each routine does to the pages that the operation holds, whatever the pages contain: the flush holds
the pages of its queue, and while it is at an inner node those of the leaf children whose messages wait.
-/

namespace BEpsilon.BeTree

open Slots

variable {K V W α : Type} {step : Steps (PageCmd (BeNode K V) Header) W} {l : Multiset PageId}
  {Q : α → Multiset PageId → Prop}

section Access

variable {page : PageId}

theorem owns_asLeaf {f : BeLeafNode K V → BeProg K V α} (h : ∀ n, Owns step (f n) l Q) :
    Owns step ((asLeaf page).bind f) l Q := by
  simp only [asLeaf, Prog.bind_def, Prog.bind_assoc]
  refine owns_read fun d => ?_
  cases d with
  | leaf n => exact h n
  | inner n => exact owns_call trivial fun b => b.elim
  | root n => exact owns_call trivial fun b => b.elim

theorem owns_asInner {f : BeInnerNode K V → BeProg K V α} (h : ∀ n, Owns step (f n) l Q) :
    Owns step ((asInner page).bind f) l Q := by
  simp only [asInner, Prog.bind_def, Prog.bind_assoc]
  refine owns_read fun d => ?_
  cases d with
  | leaf n => exact owns_call trivial fun b => b.elim
  | inner n => exact h n
  | root n => exact owns_call trivial fun b => b.elim

theorem owns_asRoot {f : BeRootNode K → BeProg K V α} (h : ∀ n, Owns step (f n) l Q) :
    Owns step ((asRoot page).bind f) l Q := by
  simp only [asRoot, Prog.bind_def, Prog.bind_assoc]
  refine owns_read fun d => ?_
  cases d with
  | leaf n => exact owns_call trivial fun b => b.elim
  | inner n => exact owns_call trivial fun b => b.elim
  | root n => exact h n

end Access

variable [LinearOrder K] [BoundedOrder K] [DecidableEq V] [Add V] [Inhabited K] [Inhabited V]
variable {N : NodeSizes} {O : Unspecified K V}

section Split

omit [BoundedOrder K] [DecidableEq V] [Add V]

omit [Inhabited K] [Inhabited V] in
/-- The new right page is held afterwards. -/
theorem owns_splitLeafNode {page : PageId} {key : K} {f : PageId × K → BeProg K V α}
    (h : ∀ right mid, Owns step (f (right, mid)) (right ::ₘ l) Q) :
    Owns step ((splitLeafNode O page key).bind f) l Q := by
  simp only [splitLeafNode, Prog.bind_def, Prog.pure_def, Prog.bind_assoc]
  refine owns_asLeaf fun n => owns_check (owns_createPage fun right => ?_)
  exact owns_pinPage (owns_write (owns_write (h right _)))

omit [Inhabited K] [Inhabited V] in
theorem owns_splitInnerNode {page : PageId} {f : PageId × K → BeProg K V α}
    (h : ∀ right mid, Owns step (f (right, mid)) (right ::ₘ l) Q) :
    Owns step ((splitInnerNode O page).bind f) l Q := by
  simp only [splitInnerNode, Prog.bind_def, Prog.pure_def, Prog.bind_assoc]
  refine owns_asInner fun n => owns_check (owns_createPage fun right => ?_)
  exact owns_pinPage (owns_write (owns_write (h right _)))

omit [LinearOrder K] [Inhabited V] [Inhabited K] in
theorem owns_createRoot {mid : K} {root right : PageId} {f : PageId → BeProg K V α}
    (h : ∀ newRoot l', root ::ₘ l' = newRoot ::ₘ l → Owns step (f newRoot) l' Q) (hroot : root ∈ l) :
    Owns step ((createRoot O mid root right).bind f) l Q := by
  obtain ⟨l, rfl⟩ := Multiset.exists_cons_of_mem hroot
  simp only [createRoot, Prog.bind_def, Prog.pure_def, Prog.bind_assoc]
  refine owns_createPage fun newRoot => owns_pinPage (owns_read fun d => owns_write (owns_write ?_))
  refine owns_modifyHeader fun header => owns_unpinPage (Multiset.cons_swap _ _ _) ?_
  exact h newRoot _ (Multiset.cons_swap _ _ _)

end Split

section Flush

omit [DecidableEq V]

omit [Add V] [Inhabited V] in
theorem owns_medianKeyOf [Inhabited V] {n : BeLeafNode K V} {us : List (Upsert K V)} {f : K → BeProg K V α}
    (h : ∀ key, Owns step (f key) l Q) : Owns step ((medianKeyOf n us).bind f) l Q := by
  unfold medianKeyOf
  split
  · exact h _
  · exact owns_call trivial fun b => b.elim

omit [BoundedOrder K] [Inhabited K] [Inhabited V] in
theorem owns_removeMessages {page : PageId} {us : List (Upsert K V)} {f : MessageMap K V → BeProg K V α}
    (h : ∀ map, Owns step (f map) l Q) : Owns step ((removeMessages N O page us).bind f) l Q := by
  simp only [removeMessages, Prog.bind_def, Prog.pure_def, Prog.bind_assoc]
  exact owns_asInner fun n => owns_check (owns_check (owns_write (h _)))

/-- The pages of a queue. -/
def pagesOf (queue : List (PageId × MessageMap K V)) : Multiset PageId := (queue.map Prod.fst : List PageId)

omit [LinearOrder K] [BoundedOrder K] [Add V] [Inhabited K] [Inhabited V] in
theorem pagesOf_nil : pagesOf ([] : List (PageId × MessageMap K V)) = 0 := rfl

omit [LinearOrder K] [BoundedOrder K] [Add V] [Inhabited K] [Inhabited V] in
theorem pagesOf_cons (queue : List (PageId × MessageMap K V)) (page : PageId) (map : MessageMap K V) :
    pagesOf ((page, map) :: queue) = page ::ₘ pagesOf queue := rfl

omit [LinearOrder K] [BoundedOrder K] [Add V] [Inhabited K] [Inhabited V] in
theorem pagesOf_append (queue : List (PageId × MessageMap K V)) (page : PageId) (map : MessageMap K V) :
    pagesOf (queue ++ [(page, map)]) = page ::ₘ pagesOf queue := by
  rw [pagesOf, pagesOf, List.map_append, ← Multiset.coe_add, Multiset.add_comm]
  rfl

/-- The pages of the leaf children with messages. -/
def leafPages (jobs : List (PageId × Option (K × PageId) × List (Upsert K V))) : Multiset PageId :=
  (jobs.map fun m => m.1 ::ₘ (m.2.1.elim 0 fun split => {split.2})).sum

omit [LinearOrder K] [BoundedOrder K] [Add V] [Inhabited K] [Inhabited V] in
/-- The page is in the queue afterwards, or it has been released. -/
theorem owns_enqueue {page : PageId} {map : MessageMap K V} {queue : List (PageId × MessageMap K V)}
    {f : List (PageId × MessageMap K V) → BeProg K V α} {l' : Multiset PageId}
    (hl : l' = page ::ₘ (pagesOf queue + l)) (h : ∀ queue', Owns step (f queue') (pagesOf queue' + l) Q) :
    Owns step ((enqueue page map queue).bind f) l' Q := by
  subst hl
  simp only [enqueue, Prog.bind_def, Prog.pure_def, Prog.ite_bind, Prog.bind_assoc, Prog.ret_bind]
  split_ifs
  · exact owns_unpinPage rfl (h queue)
  · have hq := h (queue ++ [(page, map)])
    rw [pagesOf_append, Multiset.cons_add] at hq
    exact hq

/-- The pages held for a traversal: those of the queue and those of the leaf children. -/
def Traversal.pages (t : Traversal K V) : Multiset PageId := pagesOf t.queue + leafPages t.leafMessages

omit [LinearOrder K] [BoundedOrder K] [Add V] [Inhabited K] [Inhabited V] in
theorem leafPages_append (jobs : List (PageId × Option (K × PageId) × List (Upsert K V)))
    (m : PageId × Option (K × PageId) × List (Upsert K V)) :
    leafPages (jobs ++ [m]) = leafPages jobs + (m.1 ::ₘ (m.2.1.elim 0 fun split => {split.2})) := by
  simp [leafPages]

/-- The child is held afterwards for its messages, or it has been released. -/
theorem handleChild_owns {n : BeInnerNode K V} {t : Traversal K V} {m : ℕ × List (Upsert K V)} :
    Owns step (handleChild N O n t m) (t.pages + l) fun t' l' => l' = t'.pages + l := by
  obtain ⟨childIndex, us⟩ := m
  simp only [handleChild, Prog.bind_def]
  refine owns_check (owns_pinPage (owns_read fun d => ?_))
  cases d with
  | root n => exact owns_raise
  | leaf c =>
    simp only [handleLeafChild, Prog.bind_def, Prog.pure_def]
    split_ifs
    · refine owns_medianKeyOf fun key => owns_splitLeafNode fun right mid => owns_ret ?_
      simp only [Traversal.pages, leafPages_append, Option.elim, ← Multiset.singleton_add]
      abel
    · refine owns_ret ?_
      simp only [Traversal.pages, leafPages_append, Option.elim, ← Multiset.singleton_add]
      abel
  | inner c =>
    simp only [handleInnerChild, Prog.bind_def, Prog.pure_def]
    split_ifs
    · exact owns_write (owns_check (owns_unpinPage rfl (owns_ret rfl)))
    · refine owns_removeMessages fun map => ?_
      split_ifs
      · refine owns_splitInnerNode fun right mid => owns_asInner fun left => owns_check (owns_check ?_)
        refine owns_enqueue (l := right ::ₘ (leafPages t.leafMessages + l)) ?_ fun queue => ?_
        · simp only [Traversal.pages, ← Multiset.singleton_add]
          abel
        refine owns_enqueue (l := leafPages t.leafMessages + l) ?_ fun queue' => owns_ret ?_
        · simp only [← Multiset.singleton_add]
          abel
        · simp only [Traversal.pages]
          abel
      · refine owns_ret ?_
        simp only [Traversal.pages, pagesOf_append, Multiset.cons_add]

omit [BoundedOrder K] [Inhabited K] [Inhabited V] in
/-- Applying a message holds and releases nothing. -/
theorem performMessage_owns {page : PageId} {split : Option (K × PageId)} {u : Upsert K V} :
    Owns step (performMessage N page split u) l fun _ l' => l' = l := by
  simp only [performMessage, Prog.bind_def, Prog.pure_def]
  refine owns_asLeaf fun n => ?_
  have hwrite : ∀ target (n : BeLeafNode K V),
      Owns step (PageProg.write target (BeNode.leaf n) : BeProg K V Unit) l fun _ l' => l' = l := by
    intro target n
    exact owns_call trivial fun _ => owns_ret rfl
  cases u.type with
  | DELETE =>
    dsimp only
    split_ifs
    · exact hwrite _ _
    · exact owns_ret rfl
  | UPDATE =>
    dsimp only
    split_ifs
    · exact hwrite _ _
    · exact owns_ret rfl
  | INSERT =>
    dsimp only
    split_ifs
    · exact hwrite _ _
    · exact owns_check (owns_check (hwrite _ _))
  | INVALID => exact owns_ret rfl

omit [BoundedOrder K] [Inhabited K] [Inhabited V] in
/-- The pages of a leaf child are released when its messages have been applied. -/
theorem handleLeafMessages_owns {m : PageId × Option (K × PageId) × List (Upsert K V)} :
    Owns step (handleLeafMessages N m) ((m.1 ::ₘ (m.2.1.elim 0 fun split => {split.2})) + l)
      fun _ l' => l' = l := by
  obtain ⟨page, split, us⟩ := m
  simp only [handleLeafMessages, Prog.bind_def, Prog.pure_def]
  refine owns_bind ((owns_forFold (fun _ _ l' => l' = (page ::ₘ (split.elim 0 fun s => {s.2})) + l) ?_ rfl).mono ?_)
  · rintro u us - _ rfl
    exact performMessage_owns
  rintro - _ rfl
  rw [Multiset.cons_add]
  refine owns_unpinPage rfl ?_
  cases split with
  | none => exact owns_ret (Multiset.zero_add l)
  | some split => exact owns_unpinPage_last (Multiset.singleton_add _ _) rfl

/-- The page of the inner node is released, and the pages of the new queue are held. -/
theorem handleTraversalNode_owns {page : PageId} {map : MessageMap K V}
    {queue : List (PageId × MessageMap K V)} :
    Owns step (handleTraversalNode N O page map queue) (page ::ₘ (pagesOf queue + l)) fun queue' l' =>
      l' = pagesOf queue' + l := by
  simp only [handleTraversalNode, Prog.bind_def, Prog.pure_def]
  refine owns_asInner fun n => owns_bind ((owns_forFold
    (fun _ t l' => l' = t.pages + (page ::ₘ l)) ?_ ?_).mono ?_)
  · rintro m ms t _ rfl
    exact handleChild_owns
  · simp only [Traversal.pages, leafPages, List.map_nil, List.sum_nil, ← Multiset.singleton_add]
    abel
  rintro t _ rfl
  refine owns_check (owns_write (owns_unpinPage (r := t.pages + l) ?_ ?_))
  · simp only [← Multiset.singleton_add]
    abel
  refine owns_bind ((owns_forFold (fun jobs _ l' => l' = leafPages jobs + (pagesOf t.queue + l)) ?_ ?_).mono ?_)
  · rintro m ms - _ rfl
    refine Owns.mono (Q := fun _ l' => l' = leafPages ms + (pagesOf t.queue + l)) ?_ fun _ _ h => h
    rw [leafPages, List.map_cons, List.sum_cons, Multiset.add_assoc]
    exact handleLeafMessages_owns
  · simp only [Traversal.pages]
    abel
  · rintro - _ rfl
    refine owns_ret ?_
    simp [leafPages]

/-- The flush ends with its pages released. -/
theorem iter_traverseQueue_owns {queue : List (PageId × MessageMap K V)} :
    Owns step (Prog.iter (traverseQueue N O) queue) (pagesOf queue + l) fun _ l' => l' = l := by
  refine owns_loop (fun queue l' => l' = pagesOf queue + l) ?_ rfl
  rintro queue _ rfl
  cases queue with
  | nil => exact owns_ret (owns_ret (Multiset.zero_add l))
  | cons m queue =>
    obtain ⟨page, map⟩ := m
    simp only [traverseQueue, Prog.bind_def, Prog.pure_def]
    rw [pagesOf_cons, Multiset.cons_add]
    refine owns_bind (handleTraversalNode_owns.mono ?_)
    rintro queue' _ rfl
    exact owns_ret rfl

end Flush

section Root

/-- The page of the root node is still held in exclusive mode. -/
def heldAbove (exclusiveMode : Bool) (root : PageId) (l : Multiset PageId) : Multiset PageId :=
  match exclusiveMode with
  | true => root ::ₘ l
  | false => l

omit [BoundedOrder K] [Inhabited K] [Inhabited V] in
theorem performLeafUpsert_owns {u : Upsert K V} {target : PageId} (hu : u.type ≠ .INVALID) :
    Owns step (performLeafUpsert u target) (target ::ₘ l) fun _ l' => l' = l := by
  simp only [performLeafUpsert, Prog.bind_def, Prog.pure_def]
  refine owns_asLeaf fun n => ?_
  cases htype : u.type with
  | DELETE =>
    dsimp only
    split_ifs
    · exact owns_write (owns_unpinPage rfl (owns_ret rfl))
    · exact owns_unpinPage rfl (owns_ret rfl)
  | UPDATE =>
    dsimp only
    split_ifs
    · exact owns_write (owns_unpinPage rfl (owns_ret rfl))
    · exact owns_unpinPage rfl (owns_ret rfl)
  | INSERT =>
    dsimp only
    split_ifs
    · exact owns_write (owns_unpinPage rfl (owns_ret rfl))
    · exact owns_unpinPage rfl (owns_ret rfl)
    · exact owns_write (owns_unpinPage rfl (owns_ret rfl))
  | INVALID => exact absurd htype hu

omit [DecidableEq V] [Add V] [Inhabited K] [Inhabited V] [LinearOrder K] [BoundedOrder K] in
/-- The page of the root node is released in exclusive mode. -/
theorem owns_releaseRoot {exclusiveMode dirty : Bool} {root page : PageId} {f : Unit → BeProg K V α}
    (h : Owns step (f ()) (page ::ₘ l) Q) :
    Owns step (if exclusiveMode = true then (PageProg.unpinPage root dirty).bind f else f ())
      (page ::ₘ heldAbove exclusiveMode root l) Q := by
  cases exclusiveMode with
  | false => exact h
  | true => exact owns_unpinPage (Multiset.cons_swap _ _ _) h

theorem handleLeafTarget_owns {u : Upsert K V} {exclusiveMode splitRoot : Bool} {root target : PageId} {i : ℕ}
    {n : BeLeafNode K V} (hu : u.type ≠ .INVALID) :
    Owns step (handleLeafTarget N O u exclusiveMode root i splitRoot target n)
      (target ::ₘ heldAbove exclusiveMode root l) fun _ l' => l' = l := by
  simp only [handleLeafTarget, Prog.bind_def, Prog.pure_def]
  refine owns_check ?_
  by_cases hfull : u.type = .INSERT ∧ n.size = N.LEAF_N
  · rw [if_pos hfull]
    cases exclusiveMode with
    | false => exact owns_unpinPage rfl (owns_ret rfl)
    | true =>
      refine owns_medianKeyOf fun key => owns_splitLeafNode fun right mid => owns_asRoot fun r => owns_write ?_
      refine owns_unpinPage (r := right ::ₘ target ::ₘ l) ?_ ?_
      · rw [heldAbove, Multiset.cons_swap target root, Multiset.cons_swap right root]
      dsimp only
      split_ifs
      · exact owns_unpinPage rfl (performLeafUpsert_owns hu)
      · exact owns_unpinPage (Multiset.cons_swap _ _ _) (performLeafUpsert_owns hu)
  · rw [if_neg hfull]
    exact owns_releaseRoot (performLeafUpsert_owns hu)

omit [DecidableEq V] in
theorem handleInnerTarget_owns {u : Upsert K V} {exclusiveMode splitRoot : Bool} {root target : PageId} {i : ℕ}
    {n : BeInnerNode K V} :
    Owns step (handleInnerTarget N O u exclusiveMode root i splitRoot target n)
      (target ::ₘ heldAbove exclusiveMode root l) fun _ l' => l' = l := by
  have hflush : ∀ (queue : List (PageId × MessageMap K V)) (b : Bool), Owns step
      ((Prog.iter (traverseQueue N O) queue).bind fun _ => (.ret b : BeProg K V Bool)) (pagesOf queue + l)
      fun _ l' => l' = l := by
    intro queue b
    refine owns_bind (iter_traverseQueue_owns.mono ?_)
    rintro - _ rfl
    exact owns_ret rfl
  simp only [handleInnerTarget, Prog.bind_def, Prog.pure_def]
  split
  · exact owns_releaseRoot (owns_write (owns_unpinPage rfl (owns_ret rfl)))
  split
  · exact owns_releaseRoot (owns_write (owns_unpinPage rfl (owns_ret rfl)))
  split
  · cases exclusiveMode with
    | false => exact owns_unpinPage rfl (owns_ret rfl)
    | true =>
      refine owns_removeMessages fun map => owns_check (owns_splitInnerNode fun right mid => ?_)
      refine owns_asRoot fun r => owns_write (owns_unpinPage (r := right ::ₘ target ::ₘ l) ?_ ?_)
      · rw [heldAbove, Multiset.cons_swap target root, Multiset.cons_swap right root]
      refine owns_asInner fun left => owns_check (owns_check ?_)
      refine owns_enqueue (l := right ::ₘ l) ?_ fun queue => ?_
      · rw [pagesOf_nil, Multiset.zero_add, Multiset.cons_swap]
      refine owns_enqueue (l := l) ?_ fun queue' => hflush queue' true
      simp only [← Multiset.singleton_add]
      abel
  · refine owns_releaseRoot (owns_removeMessages fun map => ?_)
    have hpages : target ::ₘ l = pagesOf [(target, map)] + l := rfl
    rw [hpages]
    exact hflush _ true

end Root

section SplitRoot

/-- Between two rounds there is a pivot for each child, and after the last one there is one child more. -/
structure Dividing (size i : ℕ) (s : RootSplit K) : Prop where
  root_size : s.rootNode.size = size
  more : i < size → s.newChildren.length = s.midPivots.length
  last : size ≤ i → s.newChildren.length = s.midPivots.length + 1

omit [BoundedOrder K] [DecidableEq V] [Add V] [LinearOrder K] [Inhabited K] [Inhabited V] in
/-- The new children are held afterwards, one more than there are pivots between them. -/
theorem owns_splitRootChildren {root : BeRootNode K} {f : RootSplit K → BeProg K V α} (hsize : root.size ≠ 0)
    (h : ∀ s, s.newChildren.length = s.midPivots.length + 1 → Owns step (f s) (s.newChildren + l) Q) :
    Owns step ((Prog.iter (splitRootChild N O) (0, { rootNode := root })).bind f) l Q := by
  refine owns_loop (fun s l' => Dividing root.size s.1 s.2 ∧ l' = s.2.newChildren + l) ?_
    ⟨⟨rfl, fun _ => rfl, fun h0 => absurd (Nat.le_zero.mp h0) hsize⟩, (Multiset.zero_add l).symm⟩
  rintro ⟨i, s⟩ _ ⟨hs, rfl⟩
  dsimp only at hs
  have hmid := N.inner_ge
  have hchild : ∀ child : PageId, child ::ₘ (s.newChildren + l) = ((s.newChildren ++ [child] : List PageId) + l) := by
    intro child
    rw [← Multiset.coe_add, Multiset.coe_singleton, ← Multiset.singleton_add]
    abel
  simp only [splitRootChild, Prog.bind_def, Prog.pure_def]
  split
  next hi =>
    refine owns_createPage fun child => owns_pinPage (owns_write ?_)
    rw [hs.root_size] at hi ⊢
    split
    next hlast =>
      have hlast := of_decide_eq_true hlast
      refine owns_ret ⟨⟨rfl, fun hlt => ?_, fun _ => ?_⟩, hchild child⟩
      · omega
      · simp [hs.more hi]
    next hlast =>
      have hlast := of_decide_eq_false (Bool.eq_false_of_not_eq_true hlast)
      refine owns_ret ⟨⟨rfl, fun _ => ?_, fun hle => ?_⟩, hchild child⟩
      · simp [hs.more hi]
      · omega
  next hi =>
    rw [hs.root_size] at hi
    exact owns_ret (h s (hs.last (by omega)))

omit [BoundedOrder K] [DecidableEq V] [Add V] [Inhabited K] [Inhabited V] [LinearOrder K] in
/-- Some pages are released. -/
theorem owns_releaseAll {pages : List PageId} {f : Unit → BeProg K V α} (h : Owns step (f ()) l Q) :
    Owns step ((Prog.forFold (fun _ (child : PageId) => PageProg.unpinPage child true) pages ()).bind f)
      (pages + l) Q := by
  refine owns_bind ((owns_forFold (fun (pages : List PageId) _ l' => l' = pages + l) ?_ rfl).mono ?_)
  · rintro page pages - _ rfl
    refine owns_unpinPage_last ?_ rfl
    rw [← Multiset.cons_coe, Multiset.cons_add]
  · rintro - _ rfl
    rwa [Multiset.coe_nil, Multiset.zero_add]

omit [BoundedOrder K] [DecidableEq V] [Add V] [Inhabited V] in
/-- The child that receives the message is held afterwards.  A full root node is read again, which is
still the node it was. -/
theorem owns_pinTarget {u : Upsert K V} {root : PageId} {n : BeRootNode K}
    {f : PageId × ℕ × Bool → BeProg K V α} (hroot : 0 < N.ROOT_N)
    (h : ∀ target i split, Owns step (f (target, i, split)) (target ::ₘ l) Q) {w : W}
    (hsteady : ∀ d w', step _ (.read root) w d w' → d = BeNode.root n) :
    Always (holding step) (fun _ c v => c.Releases v.2) ((pinTarget N O u root n).bind f) (w, l)
      fun a v => Q a v.2 := by
  simp only [pinTarget, Prog.bind_def, Prog.pure_def, Prog.ite_bind]
  split_ifs with hfull
  · simp only [splitRootNode, asRoot, Prog.bind_def, Prog.pure_def, Prog.bind_assoc]
    refine always_call trivial ?_
    rintro d ⟨w', l'⟩ ⟨hread, hl⟩
    dsimp only at hread hl
    subst hl
    rw [hsteady d w' hread]
    refine owns_splitRootChildren (show n.size ≠ 0 by omega) (fun s hs => owns_write ?_) w'
    simp only [Prog.ret_bind]
    generalize hi : lowerBound (fun i => s.midPivots.getD i default) s.midPivots.length u.key = i
    have hlt : i < s.newChildren.length := by
      rw [hs, ← hi]
      exact Nat.lt_succ_of_le (lowerBound_le _ _ _)
    have hcut : (s.newChildren : Multiset PageId) =
        s.newChildren.getD i 0 ::ₘ (s.newChildren.eraseIdx i : Multiset PageId) := by
      rw [List.getD_eq_getElem?_getD, List.getElem?_eq_getElem hlt, Option.getD_some, Multiset.cons_coe,
        Multiset.coe_eq_coe]
      exact (List.getElem_cons_eraseIdx_perm hlt).symm
    rw [hcut, Multiset.cons_add, ← Multiset.add_cons]
    exact owns_releaseAll (h _ _ _)
  · simp only [Prog.bind_assoc, Prog.ret_bind]
    exact owns_pinPage (h _ _ _) w

/-- The page below a root node is released by what handles it. -/
theorem handleTarget_owns {u : Upsert K V} {root target : PageId} {exclusiveMode split : Bool} {i : ℕ}
    (hu : u.type ≠ .INVALID) :
    Owns step ((PageProg.read target).bind fun d =>
        match d with
        | .leaf leafNode => handleLeafTarget N O u exclusiveMode root i split target leafNode
        | .inner innerNode => handleInnerTarget N O u exclusiveMode root i split target innerNode
        | .root _ => (PageProg.badCast : BeProg K V Bool))
      (target ::ₘ heldAbove exclusiveMode root l) fun _ l' => l' = l := by
  refine owns_read fun d => ?_
  cases d with
  | leaf n => exact handleLeafTarget_owns hu
  | inner n => exact handleInnerTarget_owns
  | root n => exact owns_raise

/-- Below a root node every page is released, that of the root included, which is read a second time
when it is full. -/
theorem handleRootRootUpsert_owns {u : Upsert K V} {root : PageId} {exclusiveMode : Bool}
    (hsteady : Steady step) (hroot : 0 < N.ROOT_N) (hu : u.type ≠ .INVALID) :
    Owns step (handleRootRootUpsert N O u root exclusiveMode) (root ::ₘ l) fun _ l' => l' = l := by
  simp only [handleRootRootUpsert, Prog.bind_def, Prog.pure_def]
  refine owns_getHeader fun header => owns_check ?_
  intro w
  simp only [asRoot, Prog.bind_def, Prog.bind_assoc]
  refine always_call trivial ?_
  rintro d ⟨w₁, l₁⟩ ⟨hread, hl⟩
  dsimp only at hread hl
  subst hl
  cases d with
  | leaf n => exact always_call trivial fun b => b.elim
  | inner n => exact always_call trivial fun b => b.elim
  | root n =>
    refine always_call trivial ?_
    rintro ⟨⟩ ⟨w₂, l₂⟩ ⟨hcheck, hl⟩
    dsimp only at hcheck hl
    subst hl
    have hagain : ∀ d w₃, step _ (.read root) w₂ d w₃ → d = BeNode.root n :=
      fun d w₃ hread' => hsteady root _ _ d _ _ _ w₃ hread hcheck hread'
    simp only [Prog.ret_bind, PageCmd.held]
    cases exclusiveMode with
    | false =>
      split_ifs with hretry hmode
      · have hret : Owns step ((PageProg.unpinPage root false).bind fun _ => (.ret false : BeProg K V Bool))
            (root ::ₘ l) fun _ l' => l' = l := owns_unpinPage rfl (owns_ret rfl)
        exact hret w₂
      · refine owns_pinTarget (Q := fun _ l' => l' = l) hroot (fun target i split => ?_) hagain
        exact owns_unpinPage (Multiset.cons_swap _ _ _) (handleTarget_owns hu)
      · exact absurd rfl hmode
    | true =>
      rw [if_neg (by simp)]
      exact owns_pinTarget (Q := fun _ l' => l' = l) hroot (fun _ _ _ => handleTarget_owns hu) hagain

end SplitRoot

section RootLeaf

omit [BoundedOrder K] [DecidableEq V] [Add V] [Inhabited K] [Inhabited V] [LinearOrder K] in
theorem performRootInsert_owns {u : Upsert K V} {target : PageId} {i : ℕ} :
    Owns step (performRootInsert u target i) (target ::ₘ l) fun _ l' => l' = l := by
  simp only [performRootInsert, Prog.bind_def]
  exact owns_asLeaf fun n => owns_write (owns_unpinPage_last rfl rfl)

theorem handleRootLeafUpsert_owns {u : Upsert K V} {root : PageId} (hu : u.type ≠ .INVALID) :
    Owns step (handleRootLeafUpsert N O u root) (root ::ₘ l) fun _ l' => l' = l := by
  simp only [handleRootLeafUpsert, Prog.bind_def, Prog.pure_def]
  refine owns_getHeader fun header => owns_check (owns_asLeaf fun n => ?_)
  cases htype : u.type with
  | DELETE =>
    dsimp only
    split_ifs
    · exact owns_write (owns_unpinPage_last rfl rfl)
    · exact owns_unpinPage_last rfl rfl
  | UPDATE =>
    dsimp only
    split_ifs
    · exact owns_write (owns_unpinPage_last rfl rfl)
    · exact owns_unpinPage_last rfl rfl
  | INSERT =>
    dsimp only
    split_ifs
    · exact owns_write (owns_unpinPage_last rfl rfl)
    · exact owns_unpinPage_last rfl rfl
    · refine owns_check (owns_medianKeyOf fun key => owns_splitLeafNode fun right mid => ?_)
      refine owns_createRoot ?_ (Multiset.mem_cons_of_mem (Multiset.mem_cons_self root l))
      intro newRoot l' hl'
      have hl' : l' = newRoot ::ₘ right ::ₘ l := by
        apply (Multiset.cons_inj_right root).mp
        rw [hl', Multiset.cons_swap right root, Multiset.cons_swap newRoot root]
      subst hl'
      split_ifs
      · exact owns_unpinPage (Multiset.cons_swap _ _ _) performRootInsert_owns
      · exact owns_asLeaf fun n => owns_unpinPage rfl performRootInsert_owns
    · exact owns_check performRootInsert_owns
  | INVALID => exact absurd htype hu

end RootLeaf

/-! ### The operations -/

theorem upsert_owns {u : Upsert K V} (hsteady : Steady step) (hroot : 0 < N.ROOT_N) (hu : u.type ≠ .INVALID) :
    Owns step (upsert N O u) l fun _ l' => l' = l := by
  have hbelow : ∀ header : Header, Owns step ((handleRootRootUpsert N O u header.rootID false).bind fun success =>
      if (!success) = true then PageProg.getHeader.bind fun h =>
        (PageProg.pinPage h.rootID (.fixed true) false).bind fun _ =>
          (handleRootRootUpsert N O u h.rootID true).bind fun _ => .ret ()
      else .ret ()) (header.rootID ::ₘ l) fun _ l' => l' = l := by
    intro header
    refine owns_bind ((handleRootRootUpsert_owns hsteady hroot hu).mono ?_)
    rintro success _ rfl
    split_ifs
    · refine owns_getHeader fun h => owns_pinPage (owns_bind ((handleRootRootUpsert_owns hsteady hroot hu).mono ?_))
      rintro - _ rfl
      exact owns_ret rfl
    · exact owns_ret rfl
  simp only [upsert, Prog.bind_def, Prog.pure_def]
  refine owns_getHeader fun header => owns_pinPage (owns_read fun d => ?_)
  cases d with
  | leaf n => exact owns_getHeader fun h => owns_check (handleRootLeafUpsert_owns hu)
  | inner n => exact owns_getHeader fun h => owns_check (hbelow header)
  | root n => exact owns_getHeader fun h => owns_check (hbelow header)

theorem insert_tidy (hsteady : Steady step) (hroot : 0 < N.ROOT_N) (key : K) (value : V) :
    Tidy step (insert N O key value) := by
  refine Owns.tidy ?_
  simp only [insert, drawTimeStamp, Prog.bind_def, Prog.pure_def, Prog.bind_assoc]
  exact owns_modifyHeader fun h => upsert_owns hsteady hroot (by simp)

theorem update_tidy (hsteady : Steady step) (hroot : 0 < N.ROOT_N) (key : K) (value : V) :
    Tidy step (update N O key value) := by
  refine Owns.tidy ?_
  simp only [update, drawTimeStamp, Prog.bind_def, Prog.pure_def, Prog.bind_assoc]
  exact owns_modifyHeader fun h => upsert_owns hsteady hroot (by simp)

theorem erase_tidy (hsteady : Steady step) (hroot : 0 < N.ROOT_N) (key : K) :
    Tidy step (erase N O (V := V) key) := by
  refine Owns.tidy ?_
  simp only [erase, drawTimeStamp, Prog.bind_def, Prog.pure_def, Prog.bind_assoc]
  exact owns_modifyHeader fun h => upsert_owns hsteady hroot (by simp)

omit [BoundedOrder K] [DecidableEq V] [Add V] [Inhabited K] [Inhabited V] in
/-- The way down holds one page, which is still held in the end if it is a leaf that was reached. -/
theorem iter_findStep_owns {key : K} {page : PageId} {s : Gathered V} :
    Owns step (Prog.iter (findStep (V := V) key) (page, s)) (page ::ₘ l) fun res l' =>
      l' = res.1.elim l fun leaf => leaf ::ₘ l := by
  refine owns_loop (fun s l' => l' = s.1 ::ₘ l) ?_ rfl
  rintro ⟨page, s⟩ _ rfl
  simp only [findStep, Prog.bind_def, Prog.pure_def]
  refine owns_read fun d => ?_
  cases d with
  | leaf n => exact owns_ret (owns_ret rfl)
  | root n => exact owns_ret (owns_ret rfl)
  | inner n =>
    dsimp only
    split_ifs
    · exact owns_unpinPage rfl (owns_ret (owns_ret rfl))
    · exact owns_pinPage (owns_unpinPage (Multiset.cons_swap _ _ _) (owns_ret rfl))

omit [BoundedOrder K] [DecidableEq V] [Inhabited K] [Inhabited V] in
theorem find_tidy (key : K) : Tidy step (find (V := V) key) := by
  have hupdates : ∀ (us : List V) (v : Option V), Owns step (Prog.forFold addUpdate us v) 0 fun _ l' => l' = 0 := by
    intro us v
    refine owns_forFold (fun _ _ l' => l' = 0) ?_ rfl
    rintro u us v _ rfl
    simp only [addUpdate, Prog.bind_def, Prog.pure_def]
    refine owns_check ?_
    cases v with
    | none => exact owns_raise
    | some v => exact owns_ret rfl
  refine Owns.tidy ?_
  simp only [find, Prog.bind_def, Prog.pure_def]
  refine owns_getHeader fun h => owns_pinPage (owns_read fun d => ?_)
  cases d with
  | leaf n => exact owns_unpinPage rfl (owns_ret rfl)
  | inner n => exact owns_unpinPage rfl (owns_ret rfl)
  | root n =>
    refine owns_pinPage (owns_unpinPage (Multiset.cons_swap _ _ _) (owns_bind (iter_findStep_owns.mono ?_)))
    rintro ⟨_ | page, s⟩ _ rfl
    · exact hupdates _ _
    · exact owns_asLeaf fun n => owns_unpinPage rfl (hupdates _ _)

end BEpsilon.BeTree
