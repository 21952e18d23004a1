import BEpsilon.BTree.Refine
import BEpsilon.Trees.LatchRules

/-!
# BEpsilon.BTree.Latching — the latches of the B-tree's operations

What each routine owes to other threads: it writes below a latch, the root page below an exclusive one, and
lets no node refer to the root page.
-/

namespace BEpsilon.BTree

open Slots Fanout

variable {K V : Type}

/-- The children of a node. -/
def BNode.Refers : BNode K V → PageId → Prop
  | .leaf _, _ => False
  | .inner n, e => e ∈ childSet n.children n.size

/-- What the latching of the root depends on. -/
def layout : TreeLayout (BNode K V) Header where
  isLeaf := BNode.isLeaf
  mayBeRoot _ := True
  refers := BNode.Refers
  rootID := Header.rootID
  rootLeaf := Header.leafRoot

variable {α : Type} {root page : PageId} {s : Sight (BNode K V)} {e : Bool} {x : Option (BNode K V)}
  {Q : α → Sight (BNode K V) → Prop}

theorem minds_asLeaf {f : BLeafNode K V → BProg K V α} (hs : s.Calm layout root)
    (h : ∀ n, s.Reads root page (.leaf n) → Minds layout root (f n) s Q) :
    Minds layout root ((asLeaf page).bind f) s Q := by
  simp only [asLeaf, Prog.bind_def, Prog.bind_assoc]
  refine minds_read fun d _ hd => ?_
  cases d with
  | leaf n => exact h n hd
  | inner n => exact always_call hs fun b => b.elim

theorem minds_asInner {f : BInnerNode K → BProg K V α} (hs : s.Calm layout root)
    (h : ∀ n, (∀ i ≤ n.size, n.children i ≠ root) → s.Reads root page (.inner n) → Minds layout root (f n) s Q) :
    Minds layout root ((asInner page).bind f) s Q := by
  simp only [asInner, Prog.bind_def, Prog.bind_assoc]
  refine minds_read fun d hrefers hd => ?_
  cases d with
  | leaf n => exact always_call hs fun b => b.elim
  | inner n => exact h n (fun i hi => hrefers _ ⟨i, hi, rfl⟩) hd

theorem refers_leaf {n : BLeafNode K V} : ∀ e, layout.refers (.leaf n) e → e ≠ root :=
  fun _ h => h.elim

theorem refers_inner {n : BInnerNode K} (h : ∀ i ≤ n.size, n.children i ≠ root) :
    ∀ e, (layout (V := V)).refers (.inner n) e → e ≠ root := by
  rintro _ ⟨i, hi, rfl⟩
  exact h i hi

variable [LinearOrder K] [DecidableEq V] [Add V] [Inhabited K] [Inhabited V] {N : NodeSizes}

section Split

omit [LinearOrder K] [DecidableEq V] [Add V]

/-- Both halves of a leaf are latched, the new one exclusively. -/
theorem minds_splitLeafNode {f : PageId × K → BProg K V α} (hs : s.Settled layout root)
    (hpage : s.held page = some (e, x)) (hroot : page = root → e = true)
    (h : ∀ right mid l r, right ≠ root → s.held right = none →
      ((s.put right (.leaf r)).hold page e (some (.leaf l))).Settled layout root →
      Minds layout root (f (right, mid)) ((s.put right (.leaf r)).hold page e (some (.leaf l))) Q) :
    Minds layout root ((splitLeafNode page).bind f) s Q := by
  simp only [splitLeafNode, Prog.bind_def, Prog.pure_def, Prog.bind_assoc]
  refine minds_asLeaf hs.calm fun n hn => minds_check hs.due (minds_createPage hs fun right hright => ?_)
  refine minds_pinFixed hright hs fun hnone d => ?_
  have hne := Sight.ne_of_held hpage hnone
  refine minds_write (Sight.hold_self) (fun h => absurd h hright) refers_leaf ?_
  rw [Sight.hold_hold]
  have hpage' : ∀ d, (s.hold right true d).held page = some (e, x) := fun d => (Sight.hold_ne hne).trans hpage
  refine minds_write (hpage' _) (fun hr => ⟨hroot hr, trivial⟩) refers_leaf ?_
  refine h right _ _ _ hright hnone ?_
  refine (hs.put hright).rewrite (x := .leaf n) (hpage' _) ?_ rfl
  intro e' x' he' hex
  rw [Sight.put_ne hne] at he'
  exact hn e' x' he' hex

omit [Inhabited V] in
/-- Both halves of an inner node are latched exclusively. -/
theorem minds_splitInnerNode {n : BInnerNode K} {f : PageId × K → BProg K V α} (hs : s.Settled layout root)
    (hpage : s.held page = some (true, some (.inner n))) (hsize : 1 ≤ n.size)
    (h : ∀ right mid l r, right ≠ root → s.held right = none →
      ((s.put right (.inner r)).put page (.inner l)).Settled layout root →
      Minds layout root (f (right, mid)) ((s.put right (.inner r)).put page (.inner l)) Q) :
    Minds layout root ((splitInnerNode page).bind f) s Q := by
  simp only [splitInnerNode, Prog.bind_def, Prog.pure_def, Prog.bind_assoc]
  refine minds_asInner hs.calm fun n' hchildren hn => ?_
  obtain rfl : n = n' := by simpa using hn true _ hpage (.inl rfl)
  refine minds_check hs.due (minds_createPage hs fun right hright => ?_)
  refine minds_pinFixed hright hs fun hnone d => ?_
  have hne := Sight.ne_of_held hpage hnone
  refine minds_write (Sight.hold_self) (fun h => absurd h hright) (refers_inner ?_) ?_
  · intro i hi
    dsimp only at hi ⊢
    rw [moveTo_zero (by omega)]
    exact hchildren _ (by omega)
  rw [Sight.hold_hold]
  have hpage' : ∀ d, (s.hold right true d).held page = some (true, some (.inner n)) :=
    fun d => (Sight.hold_ne hne).trans hpage
  refine minds_write (hpage' _) (fun hr => ⟨rfl, trivial⟩) (refers_inner ?_) ?_
  · intro i hi
    dsimp only at hi ⊢
    exact hchildren i (by omega)
  refine h right _ _ _ hright hnone ?_
  exact (hs.put hright).rewrite (hpage' _) (Sight.reads_of_held (hpage' _)) rfl

omit [Inhabited V] in
/-- The old root is on the new page, and the root page is an inner node; the flag is not cleared yet. -/
theorem minds_createRoot {mid : K} {right : PageId} {d : BNode K V} {f : PageId → BProg K V α}
    (hs : s.Settled layout root) (hroot : s.held root = some (true, some d)) (hright : right ≠ root)
    (h : ∀ newRoot n, newRoot ≠ root → s.held newRoot = none →
      Minds layout root (f newRoot) ((s.put newRoot d).put root (.inner n)) Q) :
    Minds layout root ((createRoot mid root right).bind f) s Q := by
  simp only [createRoot, Prog.bind_def, Prog.pure_def, Prog.bind_assoc]
  refine minds_createPage hs fun newRoot hnew => minds_pinFixed hnew hs fun hnone o => ?_
  have hroot' : ∀ o, (s.hold newRoot true o).held root = some (true, some d) :=
    fun o => (Sight.hold_ne (Ne.symm hnew)).trans hroot
  refine minds_read fun d' hrefers hd' => ?_
  obtain rfl : d = d' := by simpa using hd' true _ (hroot' o) (.inl rfl)
  refine minds_write Sight.hold_self (fun h => absurd h hnew) hrefers ?_
  rw [Sight.hold_hold]
  refine minds_write (hroot' _) (fun _ => ⟨rfl, trivial⟩) (refers_inner ?_) (h newRoot _ hnew hnone)
  intro i hi
  have hi : i ≤ 1 := hi
  rcases (by omega : i = 0 ∨ i = 1) with rfl | rfl
  · simpa [newRootNode] using hnew
  · simpa [newRootNode] using hright

end Split

section Insert

omit [Add V] [Inhabited K] [Inhabited V]

theorem minds_performInsert {key : K} {value : V} {itPage : PageId} {itIndex keyIndex : ℕ} {split : Bool}
    (hs : s.Below root) (htarget : page ≠ root) (hheld : s.held page = some (e, x)) :
    Minds layout root (performInsert key value itPage itIndex page keyIndex split) s fun _ s' => s'.Below root := by
  have hend : ∀ (s : Sight (BNode K V)) dirty, s.Below root →
      Minds layout root ((PageProg.unpinPage page dirty).bind fun _ => (.ret true : BProg K V Bool)) s
        fun _ s' => s'.Below root :=
    fun s dirty hs => minds_unpinPage hs.settled (always_ret hs.drop)
  have hwrite : ∀ n : BLeafNode K V, Minds layout root ((PageProg.write page (.leaf n)).bind fun _ =>
      (PageProg.unpinPage page true).bind fun _ => (.ret true : BProg K V Bool)) s fun _ s' => s'.Below root :=
    fun n => minds_write hheld (fun h => absurd h htarget) refers_leaf (hend _ _ (hs.hold htarget))
  simp only [performInsert, Prog.bind_def, Prog.pure_def]
  refine minds_asLeaf hs.settled.calm fun n _ => ?_
  by_cases hk : keyIndex < n.size
  · rw [if_pos hk]
    refine minds_peek fun found => ?_
    split_ifs
    · exact hend s _ hs
    · exact hwrite _
    · exact hwrite _
  · rw [if_neg hk, Prog.ret_bind, if_neg Bool.false_ne_true]
    exact hwrite _

/-- Above the child that a descent has pinned: the parent is still latched in exclusive mode, and has been
released in shared mode. -/
structure Above (root : PageId) (exclusiveMode : Bool) (parent : PageId) (np : BInnerNode K)
    (s : Sight (BNode K V)) : Prop where
  settled : s.Settled layout root
  latched : exclusiveMode = true → s.held parent = some (true, some (.inner np))
  away : exclusiveMode = false ∨ parent ≠ root → s.held root = none

variable {exclusiveMode : Bool} {parent child : PageId} {np : BInnerNode K}

omit [LinearOrder K] [DecidableEq V] in
theorem Above.below (h : Above root false parent np s) : s.Below root :=
  ⟨h.away (.inl rfl), h.settled.due⟩

omit [LinearOrder K] [DecidableEq V] in
/-- The release of the parent in exclusive mode. -/
theorem Above.release (h : Above root exclusiveMode parent np s) : (s.drop root parent).Below root := by
  by_cases hp : parent = root
  · subst hp
    exact Sight.below_drop h.settled.due
  · exact Sight.Below.drop ⟨h.away (.inr hp), h.settled.due⟩

omit [LinearOrder K] [DecidableEq V] in
/-- The parent of a split child takes the pivot and is released. -/
theorem minds_insertPivot {i : ℕ} {mid : K} {right : PageId} {f : Unit → BProg K V α} (hs : s.Settled layout root)
    (hparent : s.held parent = some (true, some (.inner np))) (haway : parent ≠ root → s.held root = none)
    (hnp : ∀ i ≤ np.size, np.children i ≠ root) (hi : i ≤ np.size) (hright : right ≠ root)
    (h : ∀ s' : Sight (BNode K V), s'.Below root → (∀ id, id ≠ parent → s'.held id = s.held id) →
      Minds layout root (f ()) s' Q) :
    Minds layout root ((PageProg.write parent (.inner (np.insertPivot i mid right))).bind fun _ =>
      (PageProg.unpinPage parent true).bind f) s Q := by
  refine minds_write hparent (fun _ => ⟨rfl, trivial⟩) ?_ ?_
  · intro e' he'
    rcases (mem_childSet_insertPivot hi).mp he' with rfl | ⟨j, hj, rfl⟩
    · exact hright
    · exact hnp j hj
  have hs' : (s.hold parent true (some (.inner (np.insertPivot i mid right)))).Settled layout root := by
    exact hs.rewrite hparent (Sight.reads_of_held hparent) rfl
  refine minds_unpinPage hs' (h _ ?_ ?_)
  · by_cases hp : parent = root
    · subst hp
      exact Sight.below_drop hs'.due
    · refine Sight.Below.drop ⟨?_, hs'.due⟩
      rw [Sight.hold_ne (Ne.symm hp)]
      exact haway hp
  · intro id hid
    rw [Sight.drop_held_ne hid, Sight.hold_ne hid]

variable [Inhabited K] [Inhabited V]

theorem minds_insertIntoLeaf {key : K} {value : V} {dirty : Bool} {i : ℕ} {n : BLeafNode K V}
    (hs : Above root exclusiveMode parent np s) (hnp : ∀ i ≤ np.size, np.children i ≠ root) (hi : i ≤ np.size)
    (hchild : child ≠ root) (hheld : s.held child = some (e, x)) (hne : child ≠ parent) :
    Minds layout root (insertIntoLeaf N key value exclusiveMode parent dirty np i child n) s
      fun _ s' => s'.Below root := by
  simp only [insertIntoLeaf, Prog.bind_def, Prog.pure_def]
  refine minds_check hs.settled.due ?_
  cases exclusiveMode with
  | false =>
    simp only [Bool.not_false, if_true, Bool.false_eq_true, if_false]
    split_ifs
    · exact minds_unpinPage hs.settled (always_ret hs.below.drop)
    · exact minds_performInsert hs.below hchild hheld
  | true =>
    simp only [Bool.not_true, if_true, Bool.false_eq_true, if_false]
    have hparent := hs.latched rfl
    split_ifs
    · refine minds_splitLeafNode hs.settled hheld (fun h => absurd h hchild) fun right mid l r hright hnone hs' => ?_
      have hpr := Sight.ne_of_held hparent hnone
      have hcr := Sight.ne_of_held hheld hnone
      refine minds_insertPivot hs' ?_ ?_ hnp hi hright fun s₁ hs₁ hsame => ?_
      · rw [Sight.hold_ne (Ne.symm hne), Sight.put_ne hpr]
        exact hparent
      · intro hp
        rw [Sight.hold_ne (Ne.symm hchild), Sight.put_ne (Ne.symm hright)]
        exact hs.away (.inr hp)
      have hheld₁ : s₁.held child = some (e, some (.leaf l)) := by
        rw [hsame _ hne, Sight.hold_self]
      have hright₁ : s₁.held right = some (true, some (.leaf r)) := by
        rw [hsame _ (Ne.symm hpr), Sight.hold_ne (Ne.symm hcr), Sight.put_self]
      split_ifs
      · have hleft : (s₁.drop root right).held child = some (e, some (.leaf l)) :=
          (Sight.drop_held_ne hcr).trans hheld₁
        exact minds_unpinPage hs₁.settled (minds_performInsert hs₁.drop hchild hleft)
      · have hhalf : (s₁.drop root child).held right = some (true, some (.leaf r)) :=
          (Sight.drop_held_ne (Ne.symm hcr)).trans hright₁
        refine minds_asLeaf hs₁.settled.calm fun left _ => minds_unpinPage hs₁.settled ?_
        exact minds_performInsert hs₁.drop hright hhalf
    · have hchild' : (s.drop root parent).held child = some (e, x) := (Sight.drop_held_ne hne).trans hheld
      exact minds_unpinPage hs.settled (minds_performInsert hs.release hchild hchild')

/-- Where a descent stands: on a latched page, exclusively latched in exclusive mode. -/
structure At (root : PageId) (exclusiveMode : Bool) (page : PageId) (s : Sight (BNode K V)) : Prop where
  settled : s.Settled layout root
  latched : ∃ e x, s.held page = some (e, x) ∧ (exclusiveMode = true → e = true)
  away : page ≠ root → s.held root = none

omit [DecidableEq V] [Inhabited V] in
theorem minds_insertBelowInner {key : K} {dirty : Bool} {i : ℕ} {n : BInnerNode K}
    (hs : Above root exclusiveMode parent np s) (hnp : ∀ i ≤ np.size, np.children i ≠ root) (hi : i ≤ np.size)
    (hchild : child ≠ root) (hheld : s.held child = some (e, x)) (hne : child ≠ parent)
    (hn : exclusiveMode = true → e = true ∧ x = some (.inner n)) :
    Minds layout root (insertBelowInner (V := V) N key exclusiveMode parent dirty np i child n) s
      fun r s' => At root exclusiveMode r.1 s' := by
  simp only [insertBelowInner, Prog.bind_def, Prog.pure_def]
  refine minds_check hs.settled.due ?_
  cases exclusiveMode with
  | false =>
    simp only [Bool.false_eq_true, and_false, if_false]
    exact always_ret ⟨hs.settled, ⟨e, x, hheld, fun h => absurd h (by simp)⟩, fun _ => hs.below.away⟩
  | true =>
    obtain ⟨rfl, rfl⟩ := hn rfl
    simp only [if_true, and_true]
    have hparent := hs.latched rfl
    split_ifs with hfull
    · have h3 := N.inner_ge
      refine minds_splitInnerNode hs.settled hheld (by omega) fun right mid l r hright hnone hs' => ?_
      have hpr := Sight.ne_of_held hparent hnone
      have hcr := Sight.ne_of_held hheld hnone
      refine minds_insertPivot hs' ?_ ?_ hnp hi hright fun s₁ hs₁ hsame => ?_
      · rw [Sight.put_ne (Ne.symm hne), Sight.put_ne hpr]
        exact hparent
      · intro hp
        rw [Sight.put_ne (Ne.symm hchild), Sight.put_ne (Ne.symm hright)]
        exact hs.away (.inr hp)
      split_ifs
      · refine minds_unpinPage hs₁.settled (always_ret ⟨hs₁.drop.settled, ⟨true, some (.inner l), ?_, fun _ => rfl⟩,
          fun _ => hs₁.drop.away⟩)
        dsimp only
        rw [Sight.drop_held_ne hcr, hsame _ hne, Sight.put_self]
      · refine minds_unpinPage hs₁.settled (always_ret ⟨hs₁.drop.settled, ⟨true, some (.inner r), ?_, fun _ => rfl⟩,
          fun _ => hs₁.drop.away⟩)
        dsimp only
        rw [Sight.drop_held_ne (Ne.symm hcr), hsame _ (Ne.symm hpr), Sight.put_ne (Ne.symm hcr), Sight.put_self]
    · refine minds_unpinPage hs.settled (always_ret ⟨hs.release.settled, ⟨true, some (.inner n), ?_, fun _ => rfl⟩,
        fun _ => hs.release.away⟩)
      dsimp only
      rw [Sight.drop_held_ne hne]
      exact hheld

/-- What the descent does with a child, when the parent has been dealt with. -/
theorem minds_insertBelow {key : K} {value : V} {dirty : Bool} {i : ℕ} {e' : Bool} {d : Option (BNode K V)}
    (hs : Above root exclusiveMode page np s) (hnp : ∀ j ≤ np.size, np.children j ≠ root) (hi : i ≤ np.size)
    (hcr : np.children i ≠ root) (hne : np.children i ≠ page) (hheld : s.held (np.children i) = some (e', d))
    (hmode : exclusiveMode = true → e' = true) :
    Minds layout root ((PageProg.read (np.children i)).bind fun d => match d with
        | .leaf n => (insertIntoLeaf N key value exclusiveMode page dirty np i (np.children i) n).bind fun r =>
            (.ret (.inr r) : BProg K V ((PageId × Bool) ⊕ Bool))
        | .inner n => (insertBelowInner N key exclusiveMode page dirty np i (np.children i) n).bind fun r =>
            .ret (.inl r)) s fun r s' =>
      Sum.elim (fun p => At root exclusiveMode p.1 s') (fun _ => s'.Below root) r := by
  refine minds_read fun d' _ hd' => ?_
  cases d' with
  | leaf n =>
    refine always_bind ((minds_insertIntoLeaf hs hnp hi hcr hheld hne).mono ?_)
    intro b s'' h
    exact always_ret h
  | inner n =>
    refine always_bind ((minds_insertBelowInner hs hnp hi hcr hheld hne ?_).mono ?_)
    · intro hex
      obtain rfl := hmode hex
      exact ⟨rfl, hd' true d hheld (.inl rfl)⟩
    · intro r s'' h
      exact always_ret h

/-- One round of the descent goes on with another page, or ends away from the root page. -/
theorem minds_insertTraversal {key : K} {value : V} {dirty : Bool} (hs : At root exclusiveMode page s) :
    Minds layout root (insertTraversal N key value exclusiveMode (page, dirty)) s fun r s' =>
      Sum.elim (fun p => At root exclusiveMode p.1 s') (fun _ => s'.Below root) r := by
  obtain ⟨e, x, hheld, hmode⟩ := hs.latched
  simp only [insertTraversal, Prog.bind_def, Prog.pure_def]
  refine minds_asInner hs.settled.calm fun np hnp hread => minds_check hs.settled.due ?_
  have hi := lowerBound_le np.pivots np.size key
  refine minds_pinPage (hnp _ hi) hs.settled fun hnone e' d hgrants => ?_
  set child := np.children (lowerBound np.pivots np.size key) with hchild
  have hne : page ≠ child := Sight.ne_of_held hheld hnone
  have hcr : child ≠ root := hnp _ hi
  have hexclusive : exclusiveMode = true → e' = true := by
    intro hex
    obtain ⟨d₀, rfl⟩ := hgrants
    subst hex
    rfl
  cases exclusiveMode with
  | false =>
    refine minds_unpinPage (hs.settled.hold hcr)
      (minds_insertBelow (d := d) ⟨(hs.settled.hold hcr).drop, ?_, ?_⟩ hnp hi hcr (Ne.symm hne) ?_
        hexclusive)
    · intro h
      cases h
    · intro _
      by_cases hp : page = root
      · rw [← hp, Sight.drop_held_self]
      · rw [Sight.drop_held_ne (Ne.symm hp), Sight.hold_ne (Ne.symm hcr)]
        exact hs.away hp
    · rw [Sight.drop_held_ne (Ne.symm hne), Sight.hold_self]
  | true =>
    refine minds_insertBelow ⟨hs.settled.hold hcr, ?_, ?_⟩ hnp hi hcr (Ne.symm hne) Sight.hold_self hexclusive
    · intro _
      rw [Sight.hold_ne hne, hheld, hmode rfl, hread e x hheld (.inl (hmode rfl))]
    · rintro (h | hp)
      · cases h
      · rw [Sight.hold_ne (Ne.symm hcr)]
        exact hs.away hp

/-- The descent ends away from the root page. -/
theorem minds_iter_insertTraversal {key : K} {value : V} {dirty : Bool} (hs : At root exclusiveMode page s) :
    Minds layout root (Prog.iter (insertTraversal N key value exclusiveMode) (page, dirty)) s
      fun _ s' => s'.Below root := by
  refine always_loop (fun p s => At root exclusiveMode p.1 s) ?_ hs
  rintro ⟨page, dirty⟩ s hs
  refine (minds_insertTraversal hs).mono ?_
  rintro (p | b) s' h
  · exact h
  · exact always_ret h

theorem minds_handleRootInnerInsert {key : K} {value : V} (hs : s.Settled layout root)
    (hheld : s.held root = some (e, x)) (hmode : exclusiveMode = true → e = true) :
    Minds layout root (handleRootInnerInsert N key value root exclusiveMode) s fun _ s' => s'.Below root := by
  simp only [handleRootInnerInsert, Prog.bind_def]
  refine minds_getHeader_held hs.calm hheld fun header _ _ => minds_check hs.due ?_
  refine minds_asInner hs.calm fun n hn hread => minds_check hs.due ?_
  obtain rfl := hread e x hheld (.inr rfl)
  split_ifs with hsplit
  · obtain ⟨hfull, hex⟩ := hsplit
    obtain rfl := hmode hex
    have h3 := N.inner_ge
    refine minds_splitInnerNode hs hheld (by omega) fun right mid l r hright hnone hs' => ?_
    refine minds_createRoot hs' Sight.put_self hright fun newRoot n' hnew hnone' => ?_
    -- the root page stays an inner node, so the flag is still right
    have hset : (((s.put right (.inner r)).put root (.inner l)).put newRoot (.inner l)).Settled layout root :=
      hs'.put hnew
    have hroot : (((s.put right (.inner r)).put root (.inner l)).put newRoot (.inner l)).held root =
        some (true, some (.inner l)) := (Sight.put_ne (Ne.symm hnew)).trans Sight.put_self
    have hfinal := hset.rewrite (d := .inner n') hroot (Sight.reads_of_held hroot) rfl
    have hne : newRoot ≠ right := by
      rintro rfl
      rw [Sight.put_ne hright, Sight.put_self] at hnone'
      cases hnone'
    refine minds_unpinPage hfinal ?_
    have haway := @Sight.below_drop _ root _ hfinal.due
    split_ifs
    · refine minds_unpinPage haway.settled
        (minds_iter_insertTraversal ⟨haway.drop.settled, ?_, fun _ => haway.drop.away⟩)
      refine ⟨true, some (.inner l), ?_, fun _ => rfl⟩
      dsimp only
      rw [Sight.drop_held_ne hne, Sight.drop_held_ne hnew, Sight.put_ne hnew, Sight.put_self]
    · refine minds_unpinPage haway.settled
        (minds_iter_insertTraversal ⟨haway.drop.settled, ?_, fun _ => haway.drop.away⟩)
      refine ⟨true, some (.inner r), ?_, fun _ => rfl⟩
      dsimp only
      rw [Sight.drop_held_ne (Ne.symm hne), Sight.drop_held_ne hright, Sight.put_ne hright,
        Sight.put_ne (Ne.symm hne), Sight.put_ne hright, Sight.put_self]
  · exact minds_iter_insertTraversal ⟨hs, ⟨e, _, hheld, hmode⟩, fun h => absurd rfl h⟩

omit [DecidableEq V] [Inhabited K] [Inhabited V] in
theorem minds_performRootInsert {key : K} {value : V} {keyIndex : ℕ} (hs : s.Settled layout root)
    (hheld : s.held page = some (e, x)) (hmode : page = root → e = true) (haway : page ≠ root → s.held root = none) :
    Minds layout root (performRootInsert key value page keyIndex) s fun _ s' => s'.Below root := by
  have hwrite : ∀ n n' : BLeafNode K V, s.Reads root page (.leaf n) →
      Minds layout root ((PageProg.write page (.leaf n')).bind fun _ => PageProg.unpinPage page true) s
        fun _ s' => s'.Below root := by
    intro n n' hn
    refine minds_write hheld (fun h => ⟨hmode h, trivial⟩) refers_leaf ?_
    have hs' := hs.rewrite (d := .leaf n') hheld hn rfl
    refine minds_unpinPage_last hs' ?_
    by_cases hp : page = root
    · subst hp
      exact Sight.below_drop hs'.due
    · refine Sight.Below.drop ⟨?_, hs'.due⟩
      rw [Sight.hold_ne (Ne.symm hp)]
      exact haway hp
  simp only [performRootInsert, Prog.bind_def]
  refine minds_asLeaf hs.calm fun n hn => ?_
  split_ifs
  · exact hwrite n _ hn
  · exact hwrite n _ hn

theorem minds_handleRootLeafInsert {key : K} {value : V} (hs : s.Settled layout root)
    (hheld : s.held root = some (true, x)) :
    Minds layout root (handleRootLeafInsert N key value root) s fun _ s' => s'.Below root := by
  simp only [handleRootLeafInsert, Prog.bind_def]
  refine minds_getHeader_held hs.calm hheld fun header _ _ => minds_check hs.due ?_
  refine minds_asLeaf hs.calm fun n hn => ?_
  obtain rfl := hn true x hheld (.inl rfl)
  split_ifs
  · refine minds_write hheld (fun _ => ⟨rfl, trivial⟩) refers_leaf ?_
    exact minds_unpinPage_last (hs.rewrite hheld hn rfl) (Sight.below_drop hs.due)
  · exact minds_unpinPage_last hs (Sight.below_drop hs.due)
  · refine minds_check hs.due (minds_splitLeafNode hs hheld (fun _ => rfl) fun right mid l r hright hnone hs' => ?_)
    refine minds_createRoot hs' Sight.hold_self hright fun newRoot n' hnew hnone' => ?_
    refine minds_clearFlag (fun _ => ⟨rfl, rfl⟩) Sight.put_self fun header' => ?_
    have hne : newRoot ≠ right := by
      rintro rfl
      rw [Sight.hold_ne hright, Sight.put_self] at hnone'
      cases hnone'
    -- the flag is cleared before the root page is released
    have hfinal : Sight.Settled layout root (Sight.know ((((s.put right (.leaf r)).hold root true
        (some (.leaf l))).put newRoot (.leaf l)).put root (.inner n')) false) := by
      refine ⟨?_, hs.due⟩
      intro e' d' he
      rw [Sight.know_held, Sight.put_self] at he
      obtain ⟨-, rfl⟩ := by simpa using he
      exact ⟨.inner n', rfl, rfl⟩
    refine minds_unpinPage hfinal ?_
    have haway := @Sight.below_drop _ root _ hfinal.due
    split_ifs
    · refine minds_unpinPage haway.settled (minds_performRootInsert haway.drop.settled (e := true)
        (x := some (.leaf l)) ?_ (fun h => absurd h hnew) fun _ => haway.drop.away)
      dsimp only
      rw [Sight.drop_held_ne hne, Sight.drop_held_ne hnew, Sight.know_held, Sight.put_ne hnew, Sight.put_self]
    · refine minds_asLeaf haway.settled.calm fun left _ => minds_unpinPage haway.settled ?_
      refine minds_performRootInsert haway.drop.settled (e := true) (x := some (.leaf r)) ?_
        (fun h => absurd h hright) fun _ => haway.drop.away
      dsimp only
      rw [Sight.drop_held_ne (Ne.symm hne), Sight.drop_held_ne hright, Sight.know_held, Sight.put_ne hright,
        Sight.put_ne (Ne.symm hne), Sight.hold_ne hright, Sight.put_self]
  · exact minds_check hs.due (minds_performRootInsert hs hheld (fun _ => rfl) fun h => absurd rfl h)

/-- The assert on the flag is the first one, and holds. -/
theorem minds_insert (key : K) (value : V) (hs : s.Calm layout root) :
    Minds layout root (insert N key value) s fun _ s' => s'.Calm layout root := by
  simp only [insert, Prog.bind_def]
  refine minds_getHeader hs ?_
  rintro header s₁ rfl hflag₁ hheld₁ hdue₁ hcalm₁ hclear₁
  refine minds_pinRoot hcalm₁ fun hnone y _ hy => minds_read fun d hrefers hd => ?_
  set s₂ := (s₁.hold header.rootID header.leafRoot (some y)).know (layout.isLeaf y) with hs₂
  have hheld₂ : s₂.held header.rootID = some (header.leafRoot, some y) := Sight.hold_self
  obtain rfl : y = d := by simpa using hd _ _ hheld₂ (.inr rfl)
  have hset : ({ s₂ with due := false } : Sight (BNode K V)).Settled layout header.rootID :=
    @Sight.settled_pin _ _ layout header.rootID { s₁ with due := false } header.leafRoot y rfl
  have hcalm₂ : s₂.Calm layout header.rootID := hset.calm
  cases y with
  | leaf n =>
    refine minds_getHeader_held hcalm₂ hheld₂ fun header' _ hflag => ?_
    have hleaf : header.leafRoot = true := by
      cases h : header.leafRoot with
      | true => rfl
      | false => exact absurd (hy false (hclear₁ h)) (by simp [layout])
    rw [hleaf] at hheld₂
    refine minds_checkFlag (hflag true rfl) ((minds_handleRootLeafInsert hset hheld₂).mono ?_)
    intro _ s' h
    exact h.settled.calm
  | inner n =>
    refine minds_getHeader_held hcalm₂ hheld₂ fun header' _ hflag => ?_
    have hinner : header'.leafRoot = false := hflag false rfl
    refine minds_checkFlag (by simp [hinner]) (always_bind
      ((minds_handleRootInnerInsert hset hheld₂ fun h => absurd h (by simp)).mono ?_))
    intro success s' h
    split_ifs
    · refine minds_pinRoot h.settled.calm fun _ z _ _ => ?_
      have hset₃ : ((s'.hold header.rootID true (some z)).know (layout.isLeaf z)).Settled layout header.rootID :=
        Sight.settled_pin h.due
      refine always_bind ((minds_handleRootInnerInsert hset₃ Sight.hold_self fun _ => rfl).mono ?_)
      intro _ s'' h''
      exact always_ret h''.settled.calm
    · exact always_ret h.settled.calm

end Insert

section Descend

omit [DecidableEq V] [Inhabited K] [Inhabited V]

/-- A latched page which is exclusively latched if it is the root page and a leaf. -/
structure Descends (root page : PageId) (s : Sight (BNode K V)) : Prop where
  settled : s.Settled layout root
  latched : ∃ e x, s.held page = some (e, x) ∧ (page = root → e = true ∨ ∃ n, x = some (.inner n))
  away : page ≠ root → s.held root = none

omit [Add V] in
theorem minds_iter_descend {key : K} {mode : LatchMode (BNode K V)} (hs : Descends root page s) :
    Minds layout root (Prog.iter (descend key mode) page) s fun leaf s' => Descends root leaf s' := by
  refine always_loop (fun page s => Descends root page s) ?_ hs
  intro page s hs
  obtain ⟨e, x, hheld, hroot⟩ := hs.latched
  simp only [descend, Prog.bind_def, Prog.pure_def]
  refine minds_read fun d hrefers hd => ?_
  cases d with
  | leaf n => exact always_ret (always_ret hs)
  | inner n =>
    have hcr := hrefers _ ⟨_, lowerBound_le n.pivots n.size key, rfl⟩
    refine minds_pinPage hcr hs.settled fun hnone e' d' _ => minds_unpinPage (hs.settled.hold hcr) (always_ret ?_)
    refine ⟨(hs.settled.hold hcr).drop, ⟨e', d', ?_, fun h => absurd h hcr⟩, fun _ => ?_⟩
    · rw [Sight.drop_held_ne (Ne.symm (Sight.ne_of_held hheld hnone)), Sight.hold_self]
    · by_cases hp : page = root
      · rw [← hp, Sight.drop_held_self]
      · rw [Sight.drop_held_ne (Ne.symm hp), Sight.hold_ne (Ne.symm hcr)]
        exact hs.away hp

omit [Add V] in
/-- The root page is latched exclusively when it was seen to be a leaf. -/
theorem minds_descendToLeaf {key : K} (hs : s.Calm layout root) (hdue : s.due = false) :
    Minds layout root (descendToLeaf (V := V) key) s fun leaf s' => Descends root leaf s' := by
  simp only [descendToLeaf, Prog.bind_def]
  refine minds_getHeader hs ?_
  rintro header s₁ rfl - - hdue₁ hcalm₁ -
  rw [hdue] at hdue₁
  have hpin : ∀ (s : Sight (BNode K V)) e y, s.due = false → (e = true ∨ ∃ n, y = BNode.inner n) →
      Descends header.rootID header.rootID ((s.hold header.rootID e (some y)).know (layout.isLeaf y)) :=
    fun s e y hdue hy => ⟨Sight.settled_pin hdue, ⟨e, some y, Sight.hold_self, fun _ => by simpa using hy⟩,
      fun h => absurd rfl h⟩
  refine minds_pinRoot hcalm₁ fun _ y _ _ => minds_read fun d _ hd => ?_
  obtain rfl : y = d := by simpa using hd _ _ Sight.hold_self (.inr rfl)
  have hset : ((s₁.hold header.rootID false (some y)).know (layout.isLeaf y)).Settled layout header.rootID :=
    Sight.settled_pin hdue₁
  cases y with
  | leaf n =>
    rw [if_pos (BNode.isLeaf_leaf n)]
    refine minds_unpinPage hset (minds_pinRoot hset.drop.calm fun _ y _ _ => ?_)
    exact minds_iter_descend (hpin _ true y hdue₁ (.inl rfl))
  | inner n =>
    rw [if_neg (by simp)]
    exact minds_iter_descend (hpin s₁ false _ hdue₁ (.inr ⟨n, rfl⟩))

omit [LinearOrder K] [Add V] in
/-- The change of the leaf that a descent has come to. -/
theorem minds_changeLeaf {n n' : BLeafNode K V} (hs : Descends root page s) (hn : s.Reads root page (.leaf n)) :
    Minds layout root ((PageProg.write page (.leaf n')).bind fun _ => PageProg.unpinPage page true) s
      fun _ s' => s'.Calm layout root := by
  obtain ⟨e, x, hheld, hroot⟩ := hs.latched
  refine minds_write hheld ?_ refers_leaf ?_
  · intro hp
    refine ⟨(hroot hp).resolve_right ?_, trivial⟩
    rintro ⟨m, rfl⟩
    have h := hn e _ hheld (.inr hp)
    simp at h
  · have hs' := hs.settled.rewrite (d := .leaf n') hheld hn rfl
    exact minds_unpinPage_last hs' hs'.drop.calm

theorem minds_update {key : K} {value : V} (hs : s.Calm layout root) (hdue : s.due = false) :
    Minds layout root (update key value) s fun _ s' => s'.Calm layout root := by
  refine always_bind ((minds_descendToLeaf hs hdue).mono ?_)
  intro leaf s' hs'
  refine minds_asLeaf hs'.settled.calm fun n hn => ?_
  dsimp only
  split_ifs
  · exact minds_changeLeaf hs' hn
  · exact minds_unpinPage_last hs'.settled hs'.settled.drop.calm

omit [Add V] in
theorem minds_erase {key : K} (hs : s.Calm layout root) (hdue : s.due = false) :
    Minds layout root (erase (V := V) key) s fun _ s' => s'.Calm layout root := by
  refine always_bind ((minds_descendToLeaf hs hdue).mono ?_)
  intro leaf s' hs'
  refine minds_asLeaf hs'.settled.calm fun n hn => ?_
  dsimp only
  split_ifs
  · exact minds_check hs'.settled.due (minds_changeLeaf hs' hn)
  · exact minds_unpinPage_last hs'.settled hs'.settled.drop.calm

omit [Add V] in
theorem minds_find {key : K} (hs : s.Calm layout root) (hdue : s.due = false) :
    Minds layout root (find (V := V) key) s fun _ s' => s'.Calm layout root := by
  simp only [find, Prog.bind_def, Prog.pure_def]
  refine minds_getHeader hs ?_
  rintro header s₁ rfl - - hdue₁ hcalm₁ -
  rw [hdue] at hdue₁
  refine minds_pinRoot hcalm₁ fun _ y _ _ => ?_
  refine always_loop (fun _ s => s.Settled layout header.rootID) ?_ (Sight.settled_pin hdue₁)
  intro page s hs
  simp only [descend, Prog.bind_def, Prog.pure_def]
  refine minds_read fun d hrefers _ => ?_
  cases d with
  | leaf n =>
    refine always_ret (minds_asLeaf hs.calm fun n _ => minds_unpinPage hs ?_)
    exact always_ret hs.drop.calm
  | inner n =>
    have hcr := hrefers _ ⟨_, lowerBound_le n.pivots n.size key, rfl⟩
    exact minds_pinPage hcr hs fun _ _ _ _ => minds_unpinPage (hs.hold hcr) (always_ret (hs.hold hcr).drop)

end Descend

/-- Does the call check the flag? -/
def assertsFlag : MapOp K V → Bool
  | .insert _ _ => true
  | _ => false

/-- Every call keeps the guarantee. -/
theorem minds_call (m : MapOp K V) (s : Sight (BNode K V)) (hs : s.Calm layout root) :
    Minds layout root (call N m) { s with due := assertsFlag m } fun _ s' => s'.Calm layout root := by
  have hcalm : ∀ b, ({ s with due := b } : Sight (BNode K V)).Calm layout root := fun _ => hs
  cases m with
  | insert key value => exact minds_answer (minds_insert key value (hcalm _))
  | update key value => exact minds_answer (minds_update (hcalm _) rfl)
  | erase key => exact minds_answer (minds_erase (hcalm _) rfl)
  | find key => exact minds_answer (minds_find (hcalm _) rfl)

end BEpsilon.BTree
