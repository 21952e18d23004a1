import BEpsilon.Buffer.PageFull
import BEpsilon.BTree.Pairs
import BEpsilon.BTree.InsertRoot

/-!
# BEpsilon.BTree.InsertFull — an insert that finds the page buffer full

Every split pins the page of the right half before it writes anything, and below the root nothing else is
pinned afterwards.  A split of the root pins the page of the new root as well, and by then the right half
has left the root: a buffer of two slots is full at that point, and the pairs of the right half are lost.
-/

namespace BEpsilon.BTree

open Slots PageWorld

variable {K V : Type} [LinearOrder K]

/-- The pages that a descent towards `key` visits. -/
inductive OnPath (mem : PageId → Option (BNode K V)) (key : K) (root : PageId) : PageId → Prop
  | refl : OnPath mem key root root
  | child {page : PageId} {n : BInnerNode K} (hp : OnPath mem key root page) (hm : mem page = some (.inner n)) :
      OnPath mem key root (n.children (lowerBound n.pivots n.size key))

/-- The insert of `key` has to split the root: a full leaf that does not hold `key`, or a full inner node
above the full leaf on the path of `key`. -/
def RootSplits (N : NodeSizes) (mem : PageId → Option (BNode K V)) (root : PageId) (key : K) : Prop :=
  (∃ t, mem root = some (.leaf t) ∧ t.size = N.LEAF_N ∧ t.get key = none) ∨
    ∃ n page t, mem root = some (.inner n) ∧ n.size = N.INNER_N ∧ OnPath mem key root page ∧
      mem page = some (.leaf t) ∧ t.size = N.LEAF_N

/-- The key at which a split cuts a node. -/
def BNode.middle : BNode K V → K
  | .leaf t => t.keys ((t.size - 1) / 2)
  | .inner n => n.pivots ((n.size - 1) / 2)

/-- The insert of `key` has to split the root, and there is a pair in its right half. -/
def SplitsPairsOff (N : NodeSizes) (mem : PageId → Option (BNode K V)) (root : PageId) (key : K) : Prop :=
  RootSplits N mem root key ∧ ∃ d, mem root = some d ∧ ∃ p ∈ pairs mem root, d.middle < p.1

theorem rootSplits_leaf {N : NodeSizes} {mem : PageId → Option (BNode K V)} {root : PageId} {key : K}
    {t : BLeafNode K V} (ht : mem root = some (.leaf t)) :
    RootSplits N mem root key ↔ t.size = N.LEAF_N ∧ t.get key = none := by
  refine ⟨?_, ?_⟩
  · rintro (⟨t', ht', h⟩ | ⟨n, page, t', hn, -⟩)
    · obtain rfl := by simpa using ht.symm.trans ht'
      exact h
    · cases ht.symm.trans hn
  · rintro ⟨h₁, h₂⟩
    exact .inl ⟨t, ht, h₁, h₂⟩

section Halves

variable [Inhabited K] [Inhabited V]

/-- What a split leaves in a node. -/
def BNode.leftHalf : BNode K V → BNode K V
  | .leaf t => .leaf t.leftHalf
  | .inner n => .inner n.leftHalf

/-- What a split moves to a new page. -/
def BNode.rightHalf : BNode K V → BNode K V
  | .leaf t => .leaf t.rightHalf
  | .inner n => .inner n.rightHalf

/-- Where the insert of `key` into the tree of `w` finds a buffer of `n` slots full: before anything was
written, or after the right half of the root was moved to a new page. -/
inductive Midway (R : PageRules) (N : NodeSizes) (n : ℕ) (key : K) (w w' : PageWorld (BNode K V) Header) : Prop
  | untouched (hs : ¬ (n = 2 ∧ RootSplits N w.mem w.header.rootID key)) (hmem : w'.mem = w.mem) (hkept : w'.kept)
  | halved (hn : n = 2) (hs : RootSplits N w.mem w.header.rootID key) {d : BNode K V}
      (hd : w.mem w.header.rootID = some d)
      (hmem : w'.mem = Function.update (Function.update w.mem (R.ids w.created) (some d.rightHalf))
        w.header.rootID (some d.leftHalf))
      (hkept : w'.kept)

theorem Midway.kept {R : PageRules} {N : NodeSizes} {n : ℕ} {key : K} {w w' : PageWorld (BNode K V) Header}
    (hm : Midway R N n key w w') : w'.kept := by
  cases hm with
  | untouched _ _ hkept => exact hkept
  | halved _ _ _ _ hkept => exact hkept

end Halves

namespace TreeInv

variable {ids : ℕ → PageId} {N : NodeSizes} {mem : PageId → Option (BNode K V)} {header : Header}
  {created H : ℕ} {pg : ℕ → K → PageId} {L : K → Option V} {key : K} {page : PageId}

/-- The pages that a descent visits are those on the path. -/
theorem onPath_iff (hT : TreeInv ids N mem header created H pg L) :
    OnPath mem key header.rootID page ↔ ∃ h ≤ H, page = pg h key := by
  refine ⟨?_, ?_⟩
  · intro hp
    induction hp with
    | refl => exact ⟨H, le_rfl, (hT.routed.top key).symm⟩
    | child _ hm ih =>
      obtain ⟨h, hh, rfl⟩ := ih
      cases h with
      | zero =>
        obtain ⟨t, ht, -⟩ := hT.leaf_page key
        cases hm.symm.trans ht
      | succ h =>
        obtain ⟨n, hn, -, hc⟩ := hT.inner_page hh key
        obtain rfl := by simpa using hm.symm.trans hn
        exact ⟨h, by omega, hc⟩
  · rintro ⟨h, hh, rfl⟩
    induction hh using Nat.decreasingInduction with
    | self =>
      rw [hT.routed.top]
      exact .refl
    | of_succ h hh ih =>
      obtain ⟨n, hn, -, hc⟩ := hT.inner_page hh key
      rw [← hc]
      exact .child ih hn

/-- With an inner root the leaf of the descent is the one on the path. -/
theorem rootSplits_inner (hT : TreeInv ids N mem header created H pg L) {n : BInnerNode K}
    (hn : mem header.rootID = some (.inner n)) :
    RootSplits N mem header.rootID key ↔
      n.size = N.INNER_N ∧ ∃ t, mem (pg 0 key) = some (.leaf t) ∧ t.size = N.LEAF_N := by
  refine ⟨?_, ?_⟩
  · rintro (⟨t, ht, -⟩ | ⟨n', page, t, hn', hfull, hp, ht, hsize⟩)
    · cases hn.symm.trans ht
    · obtain rfl := by simpa using hn.symm.trans hn'
      obtain ⟨h, hh, rfl⟩ := hT.onPath_iff.mp hp
      cases h with
      | zero => exact ⟨hfull, t, ht, hsize⟩
      | succ h =>
        obtain ⟨n', hn', -⟩ := hT.inner_page hh key
        cases ht.symm.trans hn'
  · rintro ⟨hfull, t, ht, hsize⟩
    exact .inr ⟨n, _, t, hn, hfull, hT.onPath_iff.mpr ⟨0, by omega, rfl⟩, ht, hsize⟩

end TreeInv

/-! ### The routines on a buffer of one or two slots -/

section Rules

variable [Inhabited K] [Inhabited V] {R : PageRules} {N : NodeSizes} {n : ℕ}
  {P : PageWorld (BNode K V) Header → Prop} {mem : PageId → Option (BNode K V)} {created : ℕ} {header : Header}
  {pins : List (PageId × Option (BNode K V))} {recent : List PageId} {kept : Prop} {page : PageId}
  {α : Type} {Q : α → PageWorld (BNode K V) Header → Prop}

omit [LinearOrder K] [Inhabited K] [Inhabited V] in
theorem full_asLeaf {t : BLeafNode K V} {f : BLeafNode K V → BProg K V α} (hm : mem page = some (.leaf t))
    (h : Always (handler R).steps (FullOnly R P) (f t) ⟨mem, created, header, pins, recent, kept⟩ Q) :
    Always (handler R).steps (FullOnly R P) ((asLeaf page).bind f)
      ⟨mem, created, header, pins, recent, kept⟩ Q := by
  simp only [asLeaf, Prog.bind_def, Prog.bind_assoc]
  refine full_read fun d hd => ?_
  obtain rfl := Option.some.inj (hm.symm.trans hd)
  exact h

omit [LinearOrder K] [Inhabited K] [Inhabited V] in
theorem full_asInner {t : BInnerNode K} {f : BInnerNode K → BProg K V α} (hm : mem page = some (.inner t))
    (h : Always (handler R).steps (FullOnly R P) (f t) ⟨mem, created, header, pins, recent, kept⟩ Q) :
    Always (handler R).steps (FullOnly R P) ((asInner page).bind f)
      ⟨mem, created, header, pins, recent, kept⟩ Q := by
  simp only [asInner, Prog.bind_def, Prog.bind_assoc]
  refine full_read fun d hd => ?_
  obtain rfl := Option.some.inj (hm.symm.trans hd)
  exact h

variable (hn : R.limit = some n)
include hn

omit [LinearOrder K] in
theorem full_splitLeafNode {t : BLeafNode K V} {f : PageId × K → BProg K V α} (hm : mem page = some (.leaf t))
    (hfull : n ≤ pins.length → P ⟨mem, created + 1, header, pins, recent, kept⟩)
    (h : pins.length < n → Always (handler R).steps (FullOnly R P) (f (R.ids created, t.middleKey))
      ⟨Function.update (Function.update mem (R.ids created) (some (.leaf t.rightHalf))) page
        (some (.leaf t.leftHalf)), created + 1, header, (R.ids created, mem (R.ids created)) :: pins, [], kept⟩ Q) :
    Always (handler R).steps (FullOnly R P) ((splitLeafNode page).bind f)
      ⟨mem, created, header, pins, recent, kept⟩ Q := by
  simp only [splitLeafNode, Prog.bind_def, Prog.pure_def, Prog.bind_assoc, Prog.ret_bind]
  refine full_asLeaf hm (full_check (full_createPage (full_pinPage hn hfull fun hlt _ => ?_)))
  exact full_write (full_write (h hlt))

omit [LinearOrder K] [Inhabited V] in
theorem full_splitInnerNode {t : BInnerNode K} {f : PageId × K → BProg K V α} (hm : mem page = some (.inner t))
    (h2 : 2 ≤ t.size) (hfull : n ≤ pins.length → P ⟨mem, created + 1, header, pins, recent, kept⟩)
    (h : pins.length < n → Always (handler R).steps (FullOnly R P) (f (R.ids created, t.pivots ((t.size - 1) / 2)))
      ⟨Function.update (Function.update mem (R.ids created) (some (.inner t.rightHalf))) page
        (some (.inner t.leftHalf)), created + 1, header, (R.ids created, mem (R.ids created)) :: pins, [], kept⟩ Q) :
    Always (handler R).steps (FullOnly R P) ((splitInnerNode page).bind f)
      ⟨mem, created, header, pins, recent, kept⟩ Q := by
  have hsize : t.size / 2 = t.size - ((t.size - 1) / 2 + 1) := by omega
  have hleft : t.size - t.size / 2 - 1 = (t.size - 1) / 2 := by omega
  simp only [splitInnerNode, Prog.bind_def, Prog.pure_def, Prog.bind_assoc, Prog.ret_bind]
  refine full_asInner hm (full_check (full_createPage (full_pinPage hn hfull fun hlt _ => ?_)))
  refine full_write (full_write ?_)
  rw [hleft, hsize]
  exact h hlt

omit [LinearOrder K] [Inhabited V] in
/-- The page of a new root is not pinned when the slots are used up. -/
theorem full_createRoot {mid : K} {right : PageId} {f : PageId → BProg K V α} (hlen : n ≤ pins.length)
    (hfull : P ⟨mem, created + 1, header, pins, recent, kept⟩) :
    Always (handler R).steps (FullOnly R P) ((createRoot mid page right).bind f)
      ⟨mem, created, header, pins, recent, kept⟩ Q := by
  simp only [createRoot, Prog.bind_def, Prog.pure_def, Prog.bind_assoc]
  exact full_createPage (full_pinPage hn (fun _ => hfull) fun hlt _ => absurd hlt (Nat.not_lt.mpr hlen))

end Rules

section Put

variable [DecidableEq V] {R : PageRules} {P : PageWorld (BNode K V) Header → Prop} {key : K} {value : V}
  {target : PageId} {w : PageWorld (BNode K V) Header}

/-- Nothing is pinned once the target leaf was found. -/
theorem full_performInsert {itPage : PageId} {itIndex keyIndex : ℕ} {split : Bool} :
    Always (handler R).steps (FullOnly R P) (performInsert key value itPage itIndex target keyIndex split) w
      fun b _ => b = true := by
  have hins : ∀ (t : BLeafNode K V) w', Always (handler R).steps (FullOnly R P)
      ((PageProg.write target (.leaf (t.insertPair keyIndex key value))).bind fun _ =>
        (PageProg.unpinPage target true).bind fun _ => .ret true) w' fun b _ => b = true :=
    fun t w' => full_other rfl fun _ _ => full_other rfl fun _ _ => always_ret rfl
  simp only [performInsert, asLeaf, Prog.bind_def, Prog.pure_def, Prog.bind_assoc]
  refine full_other rfl fun d w₁ => ?_
  cases d with
  | inner _ => exact full_other rfl fun b => b.elim
  | leaf t =>
    simp only [Prog.ret_bind]
    split
    · refine full_other rfl fun found w₂ => ?_
      cases found with
      | false => exact hins t w₂
      | true =>
        rw [Prog.ret_bind, if_pos rfl]
        split
        · exact full_other rfl fun _ _ => always_ret rfl
        · exact full_other rfl fun _ _ => full_other rfl fun _ _ => always_ret rfl
    · exact hins t w₁

omit [DecidableEq V] in
theorem full_performRootInsert {keyIndex : ℕ} {C : Prop} (hC : C) :
    Always (handler R).steps (FullOnly R P) (performRootInsert key value target keyIndex) w fun _ _ => C := by
  simp only [performRootInsert, asLeaf, Prog.bind_def, Prog.pure_def, Prog.bind_assoc]
  refine full_other rfl fun d w₁ => ?_
  cases d with
  | inner _ => exact full_other rfl fun b => b.elim
  | leaf t =>
    simp only [Prog.ret_bind]
    split
    · exact full_other rfl fun _ _ => full_other rfl fun _ _ => always_ret hC
    · exact full_other rfl fun _ _ => full_other rfl fun _ _ => always_ret hC

end Put

section Descent

variable [Inhabited K] [Inhabited V] [DecidableEq V] {R : PageRules} {N : NodeSizes} {n : ℕ}
  {w : PageWorld (BNode K V) Header} {H : ℕ} {pg : ℕ → K → PageId} {L : K → Option V} {key : K} {value : V}

/-- The leaf on the path of `key` is full. -/
def LeafFull (N : NodeSizes) (mem : PageId → Option (BNode K V)) (pg : ℕ → K → PageId) (key : K) : Prop :=
  ∃ t, mem (pg 0 key) = some (.leaf t) ∧ t.size = N.LEAF_N

/-- Nothing has been written since `w`, and `l` pages are pinned. -/
structure Unwritten (w : PageWorld (BNode K V) Header) (l : ℕ) (w' : PageWorld (BNode K V) Header) : Prop where
  mem : w'.mem = w.mem
  created : w'.created = w.created
  header : w'.header = w.header
  clean : Clean w.mem w'.pins
  count : w'.pins.length = l
  kept : w'.kept

/-- How an attempt ends: an optimistic one gives up exactly when the leaf is full, and has changed nothing. -/
def AttemptEnds (N : NodeSizes) (w : PageWorld (BNode K V) Header) (pg : ℕ → K → PageId) (key : K)
    (exclusiveMode : Bool) (b : Bool) (w' : PageWorld (BNode K V) Header) : Prop :=
  exclusiveMode = false → (b = true ∧ ¬ LeafFull N w.mem pg key) ∨
    (b = false ∧ LeafFull N w.mem pg key ∧ Unwritten w 0 w')

/-- The pages that are pinned at the child: the parent has been released in shared mode. -/
def atChild (exclusiveMode : Bool) : ℕ := if exclusiveMode then 2 else 1

variable (hn : R.limit = some n) (h2 : n ≤ 2)
include hn h2

/-- A full leaf is not split on two slots. -/
theorem full_insertIntoLeaf {exclusiveMode dirty : Bool} {parent : PageId} {np : BInnerNode K} {i : ℕ}
    {t : BLeafNode K V} {pins : List (PageId × Option (BNode K V))} {recent : List PageId}
    (hroom : exclusiveMode = true → ¬ (n = 2 ∧ RootSplits N w.mem w.header.rootID key))
    (ht : w.mem (pg 0 key) = some (.leaf t)) (hclean : Clean w.mem pins)
    (hcount : pins.length = atChild exclusiveMode) :
    Always (handler R).steps (FullOnly R (Midway R N n key w))
      (insertIntoLeaf N key value exclusiveMode parent dirty np i (pg 0 key) t)
      ⟨w.mem, w.created, w.header, pins, recent, True⟩ fun b w' => AttemptEnds N w pg key exclusiveMode b w' := by
  have hfull : LeafFull N w.mem pg key ↔ t.size = N.LEAF_N := by
    refine ⟨?_, fun h => ⟨t, ht, h⟩⟩
    rintro ⟨t', ht', h⟩
    obtain rfl := by simpa using ht.symm.trans ht'
    exact h
  simp only [insertIntoLeaf, Prog.bind_def, Prog.pure_def]
  refine full_check ?_
  split
  next hsize =>
    cases exclusiveMode with
    | false =>
      refine full_unpinPage hclean fun pins' hclean' hcount' => always_ret fun _ => .inr ⟨rfl, hfull.mpr hsize, ?_⟩
      rw [hcount] at hcount'
      exact ⟨rfl, rfl, rfl, hclean', by simpa [atChild] using hcount', trivial⟩
    | true =>
      refine full_splitLeafNode hn ht (fun _ => .untouched (hroom rfl) rfl trivial) fun hlt => absurd hlt ?_
      rw [hcount]
      exact Nat.not_lt.mpr h2
  next hsize =>
    have hend : ∀ b w', b = true → AttemptEnds N w pg key exclusiveMode b w' :=
      fun b w' hb _ => .inl ⟨hb, mt hfull.mp hsize⟩
    split
    · exact full_unpinPage hclean fun pins' _ _ => full_performInsert.mono hend
    · exact full_performInsert.mono hend

omit [DecidableEq V] in
/-- A full inner node below the root is not split on two slots. -/
theorem full_insertBelowInner {exclusiveMode dirty : Bool} {parent child : PageId} {np t : BInnerNode K} {i : ℕ}
    {pins : List (PageId × Option (BNode K V))} {recent : List PageId}
    (hroom : exclusiveMode = true → ¬ (n = 2 ∧ RootSplits N w.mem w.header.rootID key))
    (ht : w.mem child = some (.inner t)) (hclean : Clean w.mem pins) (hcount : pins.length = atChild exclusiveMode) :
    Always (handler R).steps (FullOnly R (Midway R N n key w))
      (insertBelowInner N key exclusiveMode parent dirty np i child t)
      ⟨w.mem, w.created, w.header, pins, recent, True⟩ fun s w' => s.1 = child ∧ Unwritten w 1 w' := by
  simp only [insertBelowInner, Prog.bind_def, Prog.pure_def]
  refine full_check ?_
  split
  next hsize =>
    have h3 : 2 ≤ t.size := by
      have := N.inner_ge
      omega
    obtain rfl := hsize.2
    refine full_splitInnerNode hn ht h3 (fun _ => .untouched (hroom rfl) rfl trivial) fun hlt => absurd hlt ?_
    rw [hcount]
    exact Nat.not_lt.mpr h2
  next hsize =>
    cases exclusiveMode with
    | false => exact always_ret ⟨rfl, rfl, rfl, rfl, hclean, hcount, trivial⟩
    | true =>
      refine full_unpinPage hclean fun pins' hclean' hcount' => always_ret ⟨rfl, rfl, rfl, rfl, hclean', ?_, trivial⟩
      rw [hcount] at hcount'
      simpa [atChild] using hcount'

variable (hT : TreeInv R.ids N w.mem w.header w.created H pg L)
include hT

/-- One level of a descent that has not written anything. -/
theorem full_insertTraversal {h : ℕ} (hh : h + 1 ≤ H) {exclusiveMode dirty : Bool}
    (hroom : exclusiveMode = true → ¬ (n = 2 ∧ RootSplits N w.mem w.header.rootID key))
    {w' : PageWorld (BNode K V) Header} (hw : Unwritten w 1 w') :
    Always (handler R).steps (FullOnly R (Midway R N n key w))
      (insertTraversal N key value exclusiveMode (pg (h + 1) key, dirty)) w' fun r w'' =>
        match r with
        | .inl s => (∃ h', h' + 1 ≤ H ∧ s.1 = pg (h' + 1) key) ∧ Unwritten w 1 w''
        | .inr b => AttemptEnds N w pg key exclusiveMode b w'' := by
  obtain ⟨mem, created, header, pins, recent, kept⟩ := w'
  obtain ⟨hmem, hcreated, hheader, hclean, hcount, hkept⟩ := hw
  dsimp only at hmem hcreated hheader hclean hcount hkept
  obtain rfl : kept = True := eq_true hkept
  subst hmem hcreated hheader
  obtain ⟨np, hnp, -, hchild⟩ := hT.inner_page (h := h) hh key
  simp only [insertTraversal, Prog.bind_def, Prog.pure_def]
  refine full_asInner hnp (full_check (full_pinPage hn (fun _ => .untouched (by omega) rfl trivial) fun _ hsome => ?_))
  rw [hchild] at hsome ⊢
  have hclean₂ := hclean.cons (pg h key) (by simpa using hsome)
  have hbelow : ∀ pins recent, Clean w.mem pins → pins.length = atChild exclusiveMode →
      Always (handler R).steps (FullOnly R (Midway R N n key w))
      ((PageProg.read (pg h key)).bind fun d => match d with
        | .leaf leafNode => (insertIntoLeaf N key value exclusiveMode (pg (h + 1) key) dirty np
            (lowerBound np.pivots np.size key) (pg h key) leafNode).bind fun r =>
              (.ret (.inr r) : BProg K V ((PageId × Bool) ⊕ Bool))
        | .inner innerNode => (insertBelowInner N key exclusiveMode (pg (h + 1) key) dirty np
            (lowerBound np.pivots np.size key) (pg h key) innerNode).bind fun r => .ret (.inl r))
      ⟨w.mem, w.created, w.header, pins, recent, True⟩ fun r w'' =>
        match r with
        | .inl s => (∃ h', h' + 1 ≤ H ∧ s.1 = pg (h' + 1) key) ∧ Unwritten w 1 w''
        | .inr b => AttemptEnds N w pg key exclusiveMode b w'' := by
    intro pins recent hclean hcount
    refine full_read fun d hd => ?_
    cases d with
    | leaf t =>
      obtain rfl : h = 0 := by
        cases h with
        | zero => rfl
        | succ h =>
          obtain ⟨t', ht', -⟩ := hT.inner_page (h := h) (by omega) key
          cases hd.symm.trans ht'
      exact always_bind ((full_insertIntoLeaf hn h2 hroom hd hclean hcount).mono fun b w' hb => always_ret hb)
    | inner t =>
      refine always_bind ((full_insertBelowInner hn h2 hroom hd hclean hcount).mono ?_)
      intro s w' hs
      refine always_ret ⟨?_, hs.2⟩
      cases h with
      | zero =>
        obtain ⟨t', ht', -⟩ := hT.leaf_page key
        cases hd.symm.trans ht'
      | succ h => exact ⟨h, by omega, hs.1⟩
  cases exclusiveMode with
  | true => exact hbelow _ _ hclean₂ (by simp [hcount, atChild])
  | false =>
    refine full_unpinPage hclean₂ fun pins' hclean' hcount' => ?_
    refine hbelow _ _ hclean' ?_
    rw [List.length_cons, hcount] at hcount'
    simpa [atChild] using hcount'

/-- The descent from the page of height `h + 1`. -/
theorem full_iter_insertTraversal {h : ℕ} (hh : h + 1 ≤ H) {exclusiveMode dirty : Bool}
    (hroom : exclusiveMode = true → ¬ (n = 2 ∧ RootSplits N w.mem w.header.rootID key))
    {w' : PageWorld (BNode K V) Header} (hw : Unwritten w 1 w') :
    Always (handler R).steps (FullOnly R (Midway R N n key w))
      (Prog.iter (insertTraversal N key value exclusiveMode) (pg (h + 1) key, dirty)) w'
      fun b w'' => AttemptEnds N w pg key exclusiveMode b w'' := by
  refine always_loop (fun s w'' => (∃ h', h' + 1 ≤ H ∧ s.1 = pg (h' + 1) key) ∧ Unwritten w 1 w'') ?_
    ⟨⟨h, hh, rfl⟩, hw⟩
  rintro ⟨page, dirty⟩ w'' ⟨⟨h', hh', rfl⟩, hw''⟩
  refine (full_insertTraversal hn h2 hT hh' hroom hw'').mono ?_
  rintro (s | b) v hv
  · exact hv
  · exact always_ret hv

/-- An exclusive attempt that ends has found room in the root; one that starts above a full leaf and has to
split the root finds no slot for the new root. -/
theorem full_handleRootInnerInsert {t : BInnerNode K} (ht : w.mem w.header.rootID = some (.inner t))
    {exclusiveMode : Bool} (hfull : exclusiveMode = true → LeafFull N w.mem pg key)
    {w' : PageWorld (BNode K V) Header} (hw : Unwritten w 1 w') :
    Always (handler R).steps (FullOnly R (Midway R N n key w))
      (handleRootInnerInsert N key value w.header.rootID exclusiveMode) w' fun b w'' =>
        AttemptEnds N w pg key exclusiveMode b w'' ∧
          (exclusiveMode = true → ¬ (n = 2 ∧ RootSplits N w.mem w.header.rootID key)) := by
  obtain ⟨h, rfl⟩ : ∃ h, H = h + 1 := by
    refine Nat.exists_eq_succ_of_ne_zero ?_
    rintro rfl
    obtain ⟨t', ht', -⟩ := hT.leaf_page key
    rw [hT.routed.top, ht] at ht'
    cases ht'
  obtain ⟨mem, created, header, pins, recent, kept⟩ := w'
  have hw₀ := hw
  obtain ⟨hmem, hcreated, hheader, hclean, hcount, hkept⟩ := hw
  dsimp only at hmem hcreated hheader hclean hcount hkept
  obtain rfl : kept = True := eq_true hkept
  subst hmem hcreated hheader
  simp only [handleRootInnerInsert, Prog.bind_def]
  refine full_getHeader (full_check (full_asInner ht (full_check ?_)))
  split
  next hsize =>
    have h3 : 2 ≤ t.size := by
      have := N.inner_ge
      omega
    have hs : RootSplits N w.mem w.header.rootID key := (hT.rootSplits_inner ht).mpr ⟨hsize.1, hfull hsize.2⟩
    refine full_splitInnerNode hn ht h3 (fun _ => .untouched (by omega) rfl trivial) fun hlt => ?_
    have hn2 : n = 2 := by omega
    refine full_createRoot hn (by rw [List.length_cons]; omega) (.halved hn2 hs ht rfl trivial)
  next hsize =>
    have hroom : exclusiveMode = true → ¬ (n = 2 ∧ RootSplits N w.mem w.header.rootID key) :=
      fun he hs => hsize ⟨((hT.rootSplits_inner ht).mp hs.2).1, he⟩
    have htop : Always (handler R).steps (FullOnly R (Midway R N n key w))
        (Prog.iter (insertTraversal N key value exclusiveMode) (pg (h + 1) key, false)) _
        fun b w'' => AttemptEnds N w pg key exclusiveMode b w'' :=
      full_iter_insertTraversal hn h2 hT le_rfl hroom hw₀
    rw [hT.routed.top] at htop
    exact htop.mono fun b w'' hb => ⟨hb, hroom⟩

/-- A root leaf that is split leaves no slot for the new root. -/
theorem full_handleRootLeafInsert {t : BLeafNode K V} (ht : w.mem w.header.rootID = some (.leaf t))
    {w' : PageWorld (BNode K V) Header} (hw : Unwritten w 1 w') :
    Always (handler R).steps (FullOnly R (Midway R N n key w))
      (handleRootLeafInsert N key value w.header.rootID) w' fun _ _ =>
        ¬ (n = 2 ∧ RootSplits N w.mem w.header.rootID key) := by
  obtain ⟨mem, created, header, pins, recent, kept⟩ := w'
  obtain ⟨hmem, hcreated, hheader, hclean, hcount, hkept⟩ := hw
  dsimp only at hmem hcreated hheader hclean hcount hkept
  obtain rfl : kept = True := eq_true hkept
  subst hmem hcreated hheader
  have htok : LeafOk N t := hT.nodes _ _ ht
  rw [rootSplits_leaf ht]
  simp only [handleRootLeafInsert, Prog.bind_def]
  refine full_getHeader (full_check (full_asLeaf ht ?_))
  split
  next hk =>
    have hend : ¬ (n = 2 ∧ t.size = N.LEAF_N ∧ t.get key = none) := by
      rintro ⟨-, -, hnone⟩
      rw [LeafOk.get_eq_some hk] at hnone
      cases hnone
    split
    · exact full_other rfl fun _ _ => full_other rfl fun _ _ => always_ret hend
    · exact full_other rfl fun _ _ => always_ret hend
  next hk =>
    refine full_check ?_
    split
    next hsize =>
      have hs : RootSplits N w.mem w.header.rootID key := (rootSplits_leaf ht).mpr ⟨hsize, htok.get_eq_none hk⟩
      refine full_splitLeafNode hn ht (fun _ => .untouched (by omega) rfl trivial) fun hlt => ?_
      have hn2 : n = 2 := by omega
      exact full_createRoot hn (by rw [List.length_cons]; omega) (.halved hn2 hs ht rfl trivial)
    next hsize => exact full_performRootInsert fun hs => hsize hs.2.1

/-- `insert` on a buffer of at most two slots. -/
theorem full_insert (key : K) (value : V) (hpins : w.pins = []) (hkept : w.kept) :
    Always (handler R).steps (FullOnly R (Midway R N n key w)) (insert N key value) w fun _ _ =>
      ¬ (n = 2 ∧ RootSplits N w.mem w.header.rootID key) := by
  have hpin : ∀ (w' : PageWorld (BNode K V) Header) (mode : LatchMode (BNode K V)) (f : Unit → BProg K V Unit),
      Unwritten w 0 w' → (∀ w'', Unwritten w 1 w'' →
        Always (handler R).steps (FullOnly R (Midway R N n key w)) (f ()) w'' fun _ _ =>
          ¬ (n = 2 ∧ RootSplits N w.mem w.header.rootID key)) →
      Always (handler R).steps (FullOnly R (Midway R N n key w))
        ((PageProg.pinPage w.header.rootID mode false).bind f) w' fun _ _ =>
          ¬ (n = 2 ∧ RootSplits N w.mem w.header.rootID key) := by
    rintro ⟨mem, created, header, pins, recent, kept⟩ mode f ⟨hmem, hcreated, hheader, hclean, hcount, hkept⟩ hf
    dsimp only at hmem hcreated hheader hclean hcount hkept
    obtain rfl : kept = True := eq_true hkept
    subst hmem hcreated hheader
    refine full_pinPage hn (fun _ => .untouched (by omega) rfl trivial) fun _ hsome => hf _ ?_
    refine ⟨rfl, rfl, rfl, hclean.cons _ (by simpa using hsome), ?_, trivial⟩
    rw [List.length_cons, hcount]
  have hw₀ : Unwritten w 0 w := ⟨rfl, rfl, rfl, hpins ▸ clean_nil, by rw [hpins]; rfl, hkept⟩
  simp only [insert, Prog.bind_def]
  obtain ⟨mem, created, header, pins, recent, kept⟩ := w
  refine full_getHeader (hpin _ _ _ hw₀ ?_)
  rintro ⟨mem', created', header', pins', recent', kept'⟩ hw₁
  obtain rfl : mem' = mem := hw₁.mem
  obtain rfl : header' = header := hw₁.header
  refine full_read fun d hd => ?_
  cases d with
  | leaf t => exact full_getHeader (full_check (full_handleRootLeafInsert hn h2 hT hd hw₁))
  | inner t =>
    refine full_getHeader (full_check (always_bind ?_))
    refine (full_handleRootInnerInsert hn h2 hT hd (fun h => by cases h) hw₁).mono ?_
    rintro b w₂ ⟨hb, -⟩
    rcases hb rfl with ⟨rfl, hroom⟩ | ⟨rfl, hfull, hw₂⟩
    · refine always_ret fun hs => hroom ?_
      exact ((hT.rootSplits_inner hd).mp hs.2).2
    · refine hpin _ _ _ hw₂ fun w₃ hw₃ => always_bind ?_
      exact (full_handleRootInnerInsert hn h2 hT hd (fun _ => hfull) hw₃).mono fun _ _ h => always_ret (h.2 rfl)

end Descent

end BEpsilon.BTree
