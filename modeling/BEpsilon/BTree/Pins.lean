import BEpsilon.Buffer.Pins
import BEpsilon.BTree.Program

/-!
# BEpsilon.BTree.Pins — the pins of the B-tree's operations

What each routine does to the pages that the operation holds, whatever the pages contain.
-/

namespace BEpsilon.BTree

open Slots

variable {K V W α : Type} {step : Steps (PageCmd (BNode K V) Header) W} {l : Multiset PageId}
  {Q : α → Multiset PageId → Prop}

theorem owns_asLeaf {page : PageId} {f : BLeafNode K V → BProg K V α} (h : ∀ n, Owns step (f n) l Q) :
    Owns step ((asLeaf page).bind f) l Q := by
  simp only [asLeaf, Prog.bind_def, Prog.bind_assoc]
  refine owns_read fun d => ?_
  cases d with
  | leaf n => exact h n
  | inner n => exact owns_call trivial fun b => b.elim

theorem owns_asInner {page : PageId} {f : BInnerNode K → BProg K V α} (h : ∀ n, Owns step (f n) l Q) :
    Owns step ((asInner page).bind f) l Q := by
  simp only [asInner, Prog.bind_def, Prog.bind_assoc]
  refine owns_read fun d => ?_
  cases d with
  | leaf n => exact owns_call trivial fun b => b.elim
  | inner n => exact h n

variable [LinearOrder K] [DecidableEq V] [Add V] [Inhabited K] [Inhabited V] {N : NodeSizes}

section Split

omit [LinearOrder K] [DecidableEq V] [Add V]

/-- The new right page is held afterwards. -/
theorem owns_splitLeafNode {page : PageId} {f : PageId × K → BProg K V α}
    (h : ∀ right mid, Owns step (f (right, mid)) (right ::ₘ l) Q) :
    Owns step ((splitLeafNode page).bind f) l Q := by
  simp only [splitLeafNode, Prog.bind_def, Prog.pure_def, Prog.bind_assoc]
  refine owns_asLeaf fun n => owns_check (owns_createPage fun right => ?_)
  exact owns_pinPage (owns_write (owns_write (h right _)))

omit [Inhabited V] in
theorem owns_splitInnerNode {page : PageId} {f : PageId × K → BProg K V α}
    (h : ∀ right mid, Owns step (f (right, mid)) (right ::ₘ l) Q) :
    Owns step ((splitInnerNode page).bind f) l Q := by
  simp only [splitInnerNode, Prog.bind_def, Prog.pure_def, Prog.bind_assoc]
  refine owns_asInner fun n => owns_check (owns_createPage fun right => ?_)
  exact owns_pinPage (owns_write (owns_write (h right _)))

omit [Inhabited V] in
theorem owns_createRoot {mid : K} {root right : PageId} {f : PageId → BProg K V α}
    (h : ∀ newRoot, Owns step (f newRoot) (newRoot ::ₘ l) Q) :
    Owns step ((createRoot mid root right).bind f) l Q := by
  simp only [createRoot, Prog.bind_def, Prog.pure_def, Prog.bind_assoc]
  refine owns_createPage fun newRoot => owns_pinPage (owns_read fun d => ?_)
  exact owns_write (owns_write (h newRoot))

end Split

section Insert

omit [Add V] [Inhabited K] [Inhabited V]

theorem performInsert_owns {key : K} {value : V} {itPage target : PageId} {itIndex keyIndex : ℕ} {split : Bool} :
    Owns step (performInsert key value itPage itIndex target keyIndex split) (target ::ₘ l)
      fun _ l' => l' = l := by
  simp only [performInsert, Prog.bind_def, Prog.pure_def]
  refine owns_asLeaf fun n => ?_
  by_cases hk : keyIndex < n.size
  · rw [if_pos hk]
    refine owns_peek fun found => ?_
    split_ifs
    · exact owns_unpinPage rfl (owns_ret rfl)
    · exact owns_write (owns_unpinPage rfl (owns_ret rfl))
    · exact owns_write (owns_unpinPage rfl (owns_ret rfl))
  · rw [if_neg hk, Prog.ret_bind, if_neg Bool.false_ne_true]
    exact owns_write (owns_unpinPage rfl (owns_ret rfl))

/-- The pages held above the child: the parent has been released in shared mode. -/
def heldAbove (exclusiveMode : Bool) (parent : PageId) (l : Multiset PageId) : Multiset PageId :=
  match exclusiveMode with
  | true => parent ::ₘ l
  | false => l

variable [Inhabited K] [Inhabited V]

theorem insertIntoLeaf_owns {key : K} {value : V} {exclusiveMode dirty : Bool} {parent child : PageId}
    {np : BInnerNode K} {i : ℕ} {n : BLeafNode K V} :
    Owns step (insertIntoLeaf N key value exclusiveMode parent dirty np i child n)
      (child ::ₘ heldAbove exclusiveMode parent l) fun _ l' => l' = l := by
  simp only [insertIntoLeaf, Prog.bind_def, Prog.pure_def]
  refine owns_check ?_
  cases exclusiveMode with
  | false =>
    simp only [heldAbove, Bool.not_false, if_true, Bool.false_eq_true, if_false]
    split_ifs
    · exact owns_unpinPage rfl (owns_ret rfl)
    · exact performInsert_owns
  | true =>
    simp only [heldAbove, Bool.not_true, if_true, Bool.false_eq_true, if_false]
    split_ifs
    · refine owns_splitLeafNode fun right mid => owns_write ?_
      refine owns_unpinPage (r := right ::ₘ child ::ₘ l) ?_ ?_
      · rw [Multiset.cons_swap child parent, Multiset.cons_swap right parent]
      dsimp only
      split_ifs
      · exact owns_unpinPage rfl performInsert_owns
      · refine owns_asLeaf fun left => owns_unpinPage (Multiset.cons_swap _ _ _) performInsert_owns
    · exact owns_unpinPage (Multiset.cons_swap _ _ _) performInsert_owns

omit [DecidableEq V] [Inhabited V] in
theorem insertBelowInner_owns {key : K} {exclusiveMode dirty : Bool} {parent child : PageId}
    {np n : BInnerNode K} {i : ℕ} :
    Owns step (insertBelowInner (V := V) N key exclusiveMode parent dirty np i child n)
      (child ::ₘ heldAbove exclusiveMode parent l) fun s l' => l' = s.1 ::ₘ l := by
  simp only [insertBelowInner, Prog.bind_def, Prog.pure_def]
  refine owns_check ?_
  cases exclusiveMode with
  | false =>
    simp only [heldAbove, Bool.false_eq_true, and_false, if_false]
    exact owns_ret rfl
  | true =>
    simp only [heldAbove, if_true, and_true]
    split_ifs
    · refine owns_splitInnerNode fun right mid => owns_write ?_
      refine owns_unpinPage (r := right ::ₘ child ::ₘ l) ?_ ?_
      · rw [Multiset.cons_swap child parent, Multiset.cons_swap right parent]
      dsimp only
      split_ifs
      · exact owns_unpinPage rfl (owns_ret rfl)
      · exact owns_unpinPage (Multiset.cons_swap _ _ _) (owns_ret rfl)
    · exact owns_unpinPage (Multiset.cons_swap _ _ _) (owns_ret rfl)

/-- What the descent does with a child, when the parent has been dealt with. -/
theorem insertBelow_owns {key : K} {value : V} {exclusiveMode dirty : Bool} {parent child : PageId}
    {np : BInnerNode K} {i : ℕ} (d : BNode K V) : Owns step (match d with
      | .leaf n => (insertIntoLeaf N key value exclusiveMode parent dirty np i child n).bind fun r =>
          (.ret (.inr r) : BProg K V ((PageId × Bool) ⊕ Bool))
      | .inner n => (insertBelowInner N key exclusiveMode parent dirty np i child n).bind fun r => .ret (.inl r))
      (child ::ₘ heldAbove exclusiveMode parent l) fun r l' =>
        l' = Sum.elim (fun s => s.1 ::ₘ l) (fun _ => l) r := by
  cases d with
  | leaf n =>
    refine owns_bind (insertIntoLeaf_owns.mono ?_)
    rintro b _ rfl
    exact owns_ret rfl
  | inner n =>
    refine owns_bind (insertBelowInner_owns.mono ?_)
    rintro s' _ rfl
    exact owns_ret rfl

/-- One round of the descent goes on with another page or ends with none. -/
theorem insertTraversal_owns {key : K} {value : V} {exclusiveMode dirty : Bool} {parent : PageId} :
    Owns step (insertTraversal N key value exclusiveMode (parent, dirty)) (parent ::ₘ l) fun r l' =>
      l' = Sum.elim (fun s => s.1 ::ₘ l) (fun _ => l) r := by
  simp only [insertTraversal, Prog.bind_def, Prog.pure_def]
  refine owns_asInner fun np => owns_check (owns_pinPage ?_)
  set child := np.children (lowerBound np.pivots np.size key)
  cases exclusiveMode with
  | false => exact owns_unpinPage (Multiset.cons_swap _ _ _) (owns_read insertBelow_owns)
  | true => exact owns_read insertBelow_owns

/-- The descent holds one page and ends with none. -/
theorem iter_insertTraversal_owns {key : K} {value : V} {exclusiveMode : Bool} {s : PageId × Bool} :
    Owns step (Prog.iter (insertTraversal N key value exclusiveMode) s) (s.1 ::ₘ l) fun _ l' => l' = l := by
  refine owns_loop (fun s l' => l' = s.1 ::ₘ l) ?_ rfl
  rintro ⟨parent, dirty⟩ _ rfl
  refine insertTraversal_owns.mono ?_
  rintro (s' | b) _ rfl
  · rfl
  · exact owns_ret rfl

theorem handleRootInnerInsert_owns {key : K} {value : V} {root : PageId} {exclusiveMode : Bool} :
    Owns step (handleRootInnerInsert N key value root exclusiveMode) (root ::ₘ l) fun _ l' => l' = l := by
  simp only [handleRootInnerInsert, Prog.bind_def]
  refine owns_getHeader fun header => owns_check (owns_asInner fun n => owns_check ?_)
  split_ifs
  · refine owns_splitInnerNode fun right mid => owns_createRoot fun newRoot => ?_
    refine owns_unpinPage (r := newRoot ::ₘ right ::ₘ l) ?_ ?_
    · rw [Multiset.cons_swap right root, Multiset.cons_swap newRoot root]
    dsimp only
    split_ifs
    · exact owns_unpinPage (Multiset.cons_swap _ _ _) iter_insertTraversal_owns
    · exact owns_unpinPage rfl iter_insertTraversal_owns
  · exact iter_insertTraversal_owns

omit [DecidableEq V] [Inhabited K] [Inhabited V] in
theorem performRootInsert_owns {key : K} {value : V} {target : PageId} {keyIndex : ℕ} :
    Owns step (performRootInsert key value target keyIndex) (target ::ₘ l) fun _ l' => l' = l := by
  simp only [performRootInsert, Prog.bind_def]
  refine owns_asLeaf fun n => ?_
  split_ifs
  · exact owns_write (owns_unpinPage_last rfl rfl)
  · exact owns_write (owns_unpinPage_last rfl rfl)

theorem handleRootLeafInsert_owns {key : K} {value : V} {root : PageId} :
    Owns step (handleRootLeafInsert N key value root) (root ::ₘ l) fun _ l' => l' = l := by
  simp only [handleRootLeafInsert, Prog.bind_def]
  refine owns_getHeader fun header => owns_check (owns_asLeaf fun n => ?_)
  split_ifs
  · exact owns_write (owns_unpinPage_last rfl rfl)
  · exact owns_unpinPage_last rfl rfl
  · refine owns_check (owns_splitLeafNode fun right mid => owns_createRoot fun newRoot => ?_)
    refine owns_modifyHeader fun _ => owns_unpinPage (r := newRoot ::ₘ right ::ₘ l) ?_ ?_
    · rw [Multiset.cons_swap right root, Multiset.cons_swap newRoot root]
    dsimp only
    split_ifs
    · exact owns_unpinPage (Multiset.cons_swap _ _ _) performRootInsert_owns
    · exact owns_asLeaf fun left => owns_unpinPage rfl performRootInsert_owns
  · exact owns_check performRootInsert_owns

theorem insert_tidy (key : K) (value : V) : Tidy step (insert N key value) := by
  refine Owns.tidy ?_
  simp only [insert, Prog.bind_def]
  refine owns_getHeader fun header => owns_pinPage (owns_read fun d => ?_)
  cases d with
  | leaf n => exact owns_getHeader fun _ => owns_check handleRootLeafInsert_owns
  | inner n =>
    refine owns_getHeader fun _ => owns_check (owns_bind (handleRootInnerInsert_owns.mono ?_))
    rintro success _ rfl
    split_ifs
    · refine owns_pinPage (owns_bind (handleRootInnerInsert_owns.mono ?_))
      rintro _ _ rfl
      exact owns_ret rfl
    · exact owns_ret rfl

end Insert

section Descend

omit [DecidableEq V] [Inhabited K] [Inhabited V]

omit [Add V] in
/-- The descent holds one page, at the end the leaf. -/
theorem iter_descend_owns {key : K} {mode : LatchMode (BNode K V)} {page : PageId} :
    Owns step (Prog.iter (descend key mode) page) (page ::ₘ l) fun leaf l' => l' = leaf ::ₘ l := by
  refine owns_loop (fun page l' => l' = page ::ₘ l) ?_ rfl
  rintro page _ rfl
  simp only [descend, Prog.bind_def, Prog.pure_def]
  refine owns_read fun d => ?_
  cases d with
  | leaf n => exact owns_ret (owns_ret rfl)
  | inner n => exact owns_pinPage (owns_unpinPage (Multiset.cons_swap _ _ _) (owns_ret rfl))

omit [Add V] in
theorem descendToLeaf_owns {key : K} :
    Owns step (descendToLeaf (V := V) key) l fun leaf l' => l' = leaf ::ₘ l := by
  simp only [descendToLeaf, Prog.bind_def]
  refine owns_getHeader fun header => owns_pinPage (owns_read fun d => ?_)
  split_ifs
  · exact owns_unpinPage rfl (owns_pinPage iter_descend_owns)
  · exact iter_descend_owns

theorem update_tidy (key : K) (value : V) : Tidy step (update key value) := by
  refine Owns.tidy (owns_bind (descendToLeaf_owns.mono ?_))
  rintro leaf _ rfl
  refine owns_asLeaf fun n => ?_
  dsimp only
  split_ifs
  · exact owns_write (owns_unpinPage_last rfl rfl)
  · exact owns_unpinPage_last rfl rfl

omit [Add V] in
theorem erase_tidy (key : K) : Tidy step (erase (V := V) key) := by
  refine Owns.tidy (owns_bind (descendToLeaf_owns.mono ?_))
  rintro leaf _ rfl
  refine owns_asLeaf fun n => ?_
  dsimp only
  split_ifs
  · exact owns_check (owns_write (owns_unpinPage_last rfl rfl))
  · exact owns_unpinPage_last rfl rfl

omit [Add V] in
theorem find_tidy (key : K) : Tidy step (find (V := V) key) := by
  refine Owns.tidy ?_
  simp only [find, Prog.bind_def, Prog.pure_def]
  refine owns_getHeader fun header => owns_pinPage (owns_bind (iter_descend_owns.mono ?_))
  rintro leaf _ rfl
  exact owns_asLeaf fun n => owns_unpinPage rfl (owns_ret rfl)

end Descend

end BEpsilon.BTree
