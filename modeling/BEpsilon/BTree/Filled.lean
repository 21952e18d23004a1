import BEpsilon.BTree.Program
import BEpsilon.Buffer.Fills
import Mathlib.Data.Set.Card

/-!
# BEpsilon.BTree.Filled — the arrays of the B-tree's nodes

The nodes of a page are arrays of fixed size.  `Fit` says that a node keeps to them: nothing was ever stored at or
behind the capacity, and its children are pages that were created.  Every node that a call writes is `Fit`, in the
middle of a split as well; and an insert creates one leaf page at most.
-/

namespace BEpsilon.BTree

open Slots Buffer

variable {K V : Type} [Inhabited K] [Inhabited V]

/-- A leaf within its arrays. -/
structure BLeafNode.InBounds (N : NodeSizes) (n : BLeafNode K V) : Prop where
  size_le : n.size ≤ N.LEAF_N
  keys : ∀ i, N.LEAF_N ≤ i → n.keys i = default
  values : ∀ i, N.LEAF_N ≤ i → n.values i = default

/-- An inner node within its arrays. -/
structure BInnerNode.InBounds (N : NodeSizes) (n : BInnerNode K) : Prop where
  size_le : n.size ≤ N.INNER_N
  pivots : ∀ i, N.INNER_N ≤ i → n.pivots i = default
  children : ∀ i, N.INNER_N + 1 ≤ i → n.children i = 0

/-- A node within its arrays, whose children are among the first `k` pages. -/
def Fit (R : PageRules) (N : NodeSizes) (k : ℕ) : BNode K V → Prop
  | .leaf n => n.InBounds N
  | .inner n => n.InBounds N ∧ ∀ i, n.children i = 0 ∨ ∃ j < k, R.ids j = n.children i

/-- The pages that are leaves. -/
def leafPages (mem : PageId → Option (BNode K V)) : Set PageId := {id | ∃ n, mem id = some (.leaf n)}

/-- All nodes fit, and `c` pages at most are leaves. -/
structure Filled (R : PageRules) (N : NodeSizes) (c : ℕ∞) (mem : PageId → Option (BNode K V)) (k : ℕ) : Prop where
  fit : ∀ id d, mem id = some d → Fit R N k d
  leaves : (leafPages mem).encard ≤ c

variable {R : PageRules} {N : NodeSizes} {c : ℕ∞} {mem : PageId → Option (BNode K V)} {k : ℕ} {id : PageId}

theorem Fit.mono {d : BNode K V} {k' : ℕ} (h : Fit R N k d) (hk : k ≤ k') : Fit R N k' d := by
  cases d with
  | leaf n => exact h
  | inner n =>
    refine ⟨h.1, fun i => (h.2 i).imp_right ?_⟩
    rintro ⟨j, hj, e⟩
    exact ⟨j, hj.trans_le hk, e⟩

theorem Filled.mono {c' : ℕ∞} {k' : ℕ} (h : Filled R N c mem k) (hc : c ≤ c') (hk : k ≤ k') :
    Filled R N c' mem k' :=
  ⟨fun id d hd => (h.fit id d hd).mono hk, h.leaves.trans hc⟩

theorem Filled.created (h : Filled R N c mem k) : Filled R N c mem (k + 1) := h.mono le_rfl (Nat.le_succ k)

theorem Filled.fit_write {d : BNode K V} (h : Filled R N c mem k) (hd : Fit R N k d) :
    ∀ id' d', Function.update mem id (some d) id' = some d' → Fit R N k d' := by
  intro id' d' hd'
  by_cases e : id' = id
  · subst e
    obtain rfl := by simpa using hd'
    exact hd
  · exact h.fit id' d' (by simpa [Function.update_of_ne e] using hd')

/-- A leaf is written to a page that is one. -/
theorem Filled.write_leaf {n n' : BLeafNode K V} (h : Filled R N c mem k) (hm : mem id = some (.leaf n))
    (hn : n'.InBounds N) : Filled R N c (Function.update mem id (some (.leaf n'))) k := by
  refine ⟨h.fit_write hn, le_trans (Set.encard_le_encard ?_) h.leaves⟩
  rintro id' ⟨m, hm'⟩
  by_cases e : id' = id
  · subst e
    exact ⟨n, hm⟩
  · exact ⟨m, by simpa [Function.update_of_ne e] using hm'⟩

/-- A leaf is written to a new page. -/
theorem Filled.add_leaf {n : BLeafNode K V} (h : Filled R N c mem k) (hn : n.InBounds N) :
    Filled R N (c + 1) (Function.update mem id (some (.leaf n))) k := by
  refine ⟨h.fit_write hn, ?_⟩
  have hsub : leafPages (Function.update mem id (some (.leaf n))) ⊆ Insert.insert id (leafPages mem) := by
    rintro id' ⟨m, hm⟩
    by_cases e : id' = id
    · exact .inl e
    · exact .inr ⟨m, by simpa [Function.update_of_ne e] using hm⟩
  calc (leafPages (Function.update mem id (some (.leaf n)))).encard
      ≤ (Insert.insert id (leafPages mem)).encard := Set.encard_le_encard hsub
    _ ≤ (leafPages mem).encard + 1 := Set.encard_insert_le _ _
    _ ≤ c + 1 := by gcongr; exact h.leaves

/-- An inner node is written. -/
theorem Filled.write_inner {n : BInnerNode K} (h : Filled R N c mem k) (hn : Fit R N k (.inner n : BNode K V)) :
    Filled R N c (Function.update mem id (some (.inner n))) k := by
  refine ⟨h.fit_write hn, le_trans (Set.encard_le_encard ?_) h.leaves⟩
  rintro id' ⟨m, hm⟩
  by_cases e : id' = id
  · subst e
    simp at hm
  · exact ⟨m, by simpa [Function.update_of_ne e] using hm⟩

/-- The node of the root page moves to a new page. -/
theorem Filled.move {root new : PageId} {d : BNode K V} {n : BInnerNode K} (h : Filled R N c mem k)
    (hd : mem root = some d) (hn : Fit R N k (.inner n : BNode K V)) :
    Filled R N c (Function.update (Function.update mem new (some d)) root (some (.inner n))) k := by
  have hfit : ∀ id' d', Function.update mem new (some d) id' = some d' → Fit R N k d' :=
    h.fit_write (h.fit root d hd)
  refine ⟨Filled.fit_write (c := ⊤) ⟨hfit, le_top⟩ hn, le_trans ?_ h.leaves⟩
  have hmem : ∀ id' m, Function.update (Function.update mem new (some d)) root (some (.inner n)) id' =
      some (.leaf m) → id' ≠ root ∧ (id' = new ∧ d = .leaf m ∨ mem id' = some (.leaf m)) := by
    intro id' m hm
    have hr : id' ≠ root := by
      rintro rfl
      simp at hm
    rw [Function.update_of_ne hr] at hm
    by_cases e : id' = new
    · subst e
      exact ⟨hr, .inl ⟨rfl, by simpa using hm⟩⟩
    · exact ⟨hr, .inr (by simpa [Function.update_of_ne e] using hm)⟩
  cases d with
  | leaf m =>
    have hroot : root ∈ leafPages mem := ⟨m, hd⟩
    refine (Set.encard_le_encard (t := Insert.insert new (leafPages mem \ {root})) ?_).trans
      ((Set.encard_insert_le _ _).trans (Set.encard_sdiff_singleton_add_one hroot).le)
    rintro id' ⟨m', hm'⟩
    obtain ⟨hr, ⟨e, -⟩ | hm'⟩ := hmem id' m' hm'
    · exact .inl e
    · exact .inr ⟨⟨m', hm'⟩, hr⟩
  | inner m =>
    refine Set.encard_le_encard ?_
    rintro id' ⟨m', hm'⟩
    obtain ⟨-, ⟨-, e⟩ | hm'⟩ := hmem id' m' hm'
    · cases e
    · exact ⟨m', hm'⟩

/-! ### Nodes that fit -/

section Nodes

variable {n : BLeafNode K V} {m : BInnerNode K}

theorem insertAt_default {α : Type} [Inhabited α] {a : Slots α} {n i b : ℕ} {x : α} (hn : n < b) (hi : i < b)
    (ha : ∀ j, b ≤ j → a j = default) : ∀ j, b ≤ j → insertAt a n i x j = default := by
  intro j hj
  rw [insertAt, Function.update_of_ne (by omega), moveBackward, moveTo_apply, if_neg (by omega)]
  exact ha j hj

theorem moveTo_default {α : Type} [Inhabited α] {src dst : Slots α} {first last d b : ℕ}
    (h : d + (last - first) ≤ b) (hd : ∀ j, b ≤ j → dst j = default) :
    ∀ j, b ≤ j → moveTo src first last dst d j = default := by
  intro j hj
  rw [moveTo_apply, if_neg (by omega)]
  exact hd j hj

theorem update_default {α : Type} [Inhabited α] {a : Slots α} {i b : ℕ} {x : α} (hi : i < b)
    (ha : ∀ j, b ≤ j → a j = default) : ∀ j, b ≤ j → Function.update a i x j = default := by
  intro j hj
  rw [Function.update_of_ne (by omega)]
  exact ha j hj

/-- A pair is put into a leaf with a free slot. -/
theorem BLeafNode.InBounds.insertPair (h : n.InBounds N) (hroom : n.size < N.LEAF_N) {keyIndex : ℕ}
    (hi : keyIndex < N.LEAF_N) (key : K) (value : V) : (n.insertPair keyIndex key value).InBounds N :=
  ⟨hroom, insertAt_default hroom hi h.keys, insertAt_default hroom hi h.values⟩

/-- A value is replaced. -/
theorem BLeafNode.InBounds.setValue (h : n.InBounds N) {keyIndex : ℕ} (hi : keyIndex < n.size) (value : V) :
    BLeafNode.InBounds N { n with values := Function.update n.values keyIndex value } :=
  ⟨h.size_le, h.keys, update_default (hi.trans_le h.size_le) h.values⟩

theorem BLeafNode.InBounds.erase (h : n.InBounds N) (keyIndex : ℕ) :
    BLeafNode.InBounds N
      { keys := eraseAt n.keys n.size keyIndex
        values := eraseAt n.values n.size keyIndex
        size := n.size - 1 } := by
  have hsize := h.size_le
  refine ⟨(Nat.sub_le _ _).trans hsize, fun j hj => ?_, fun j hj => ?_⟩
  · show eraseAt n.keys n.size keyIndex j = default
    rw [eraseAt, moveTo_apply, if_neg (by omega)]
    exact h.keys j hj
  · show eraseAt n.values n.size keyIndex j = default
    rw [eraseAt, moveTo_apply, if_neg (by omega)]
    exact h.values j hj

/-- A pivot is put into an inner node with a free slot. -/
theorem Fit.insertPivot (h : Fit R N k (.inner m : BNode K V)) (hroom : m.size < N.INNER_N) {i : ℕ}
    (hi : i ≤ m.size) (mid : K) {right : PageId} (hright : ∃ j < k, R.ids j = right) :
    Fit R N k (.inner (m.insertPivot i mid right) : BNode K V) := by
  refine ⟨⟨hroom, insertAt_default hroom (by omega) h.1.pivots, ?_⟩, fun j => ?_⟩
  · exact insertAt_default (b := N.INNER_N + 1) (by omega) (by omega) h.1.children
  · simp only [BInnerNode.insertPivot, insertAt]
    by_cases e : j = i + 1
    · rw [e, Function.update_self]
      exact .inr hright
    · rw [Function.update_of_ne e, moveBackward, moveTo_apply]
      split
      · exact h.2 _
      · exact h.2 _

end Nodes

/-! ### The routines -/

section Access

omit [Inhabited K] [Inhabited V]

variable {α : Type} {Ok : ℕ → BNode K V → Prop} {page : PageId} {Q : α → (PageId → Option (BNode K V)) → ℕ → Prop}

theorem fills_asLeaf {f : BLeafNode K V → BProg K V α}
    (h : ∀ n, mem page = some (.leaf n) → Fills R Ok (f n) mem k Q) :
    Fills R Ok ((asLeaf page).bind f) mem k Q := by
  simp only [asLeaf, Prog.bind_def, Prog.bind_assoc]
  refine fills_read fun d hd => ?_
  cases d with
  | leaf n => exact h n hd
  | inner n => exact fills_call fun _ _ _ => ⟨trivial, fun b => b.elim⟩

theorem fills_asInner {f : BInnerNode K → BProg K V α}
    (h : ∀ n, mem page = some (.inner n) → Fills R Ok (f n) mem k Q) :
    Fills R Ok ((asInner page).bind f) mem k Q := by
  simp only [asInner, Prog.bind_def, Prog.bind_assoc]
  refine fills_read fun d hd => ?_
  cases d with
  | leaf n => exact fills_call fun _ _ _ => ⟨trivial, fun b => b.elim⟩
  | inner n => exact h n hd

end Access

section Split

variable {α : Type} {page : PageId} {Q : α → (PageId → Option (BNode K V)) → ℕ → Prop}

/-- The new right page has a leaf with free slots, and so has the page that was split. -/
theorem fills_splitLeafNode (hR : R.asserts = true) (hP : Filled R N c mem k) {n : BLeafNode K V}
    (hn : mem page = some (.leaf n)) {f : PageId × K → BProg K V α}
    (h : ∀ mem' l, Filled R N (c + 1) mem' (k + 1) → mem' page = some (.leaf l) → 1 ≤ l.size →
      l.size < N.LEAF_N → (∀ r, mem' (R.ids k) = some (.leaf r) → r.size < N.LEAF_N) → (n.size - 1) / 2 < n.size →
      Fills R (Fit R N) (f (R.ids k, n.keys ((n.size - 1) / 2))) mem' (k + 1) Q) :
    Fills R (Fit R N) ((splitLeafNode page).bind f) mem k Q := by
  have hfit : n.InBounds N := hP.fit page _ hn
  have hsize := hfit.size_le
  simp only [splitLeafNode, Prog.bind_def, Prog.pure_def, Prog.bind_assoc]
  refine fills_asLeaf fun n' hn' => ?_
  obtain rfl : n = n' := by simpa [hn] using hn'
  refine fills_check hR fun htwo => fills_createPage (fills_pinPage ?_)
  have htwo : 2 ≤ n.size := by simpa using htwo
  have hright : BLeafNode.InBounds N
      { keys := moveTo n.keys ((n.size - 1) / 2 + 1) n.size (fun _ => default) 0
        values := moveTo n.values ((n.size - 1) / 2 + 1) n.size (fun _ => default) 0
        size := n.size / 2 } := by
    refine ⟨by dsimp only; omega, ?_, ?_⟩
    · exact moveTo_default (by omega) fun _ _ => rfl
    · exact moveTo_default (by omega) fun _ _ => rfl
  have hleft : BLeafNode.InBounds N { n with size := n.size - n.size / 2 } :=
    ⟨by dsimp only; omega, hfit.keys, hfit.values⟩
  refine fills_write hright (fills_write hleft ?_)
  have hP' : Filled R N (c + 1) (Function.update mem (R.ids k) (some (.leaf _))) (k + 1) :=
    hP.created.add_leaf hright
  refine h _ _ ?_ (Function.update_self _ _ _) (by dsimp only; omega) (by dsimp only; omega) ?_ (by omega)
  · by_cases e : page = R.ids k
    · subst e
      exact hP'.write_leaf (Function.update_self _ _ _) hleft
    · exact hP'.write_leaf ((Function.update_of_ne e _ _).trans hn) hleft
  · intro r hr
    by_cases e : R.ids k = page
    · rw [e, Function.update_self] at hr
      obtain rfl : _ = r := BNode.leaf.inj (Option.some.inj hr)
      dsimp only
      omega
    · rw [Function.update_of_ne e, Function.update_self] at hr
      obtain rfl : _ = r := BNode.leaf.inj (Option.some.inj hr)
      dsimp only
      omega

theorem fills_splitInnerNode (hR : R.asserts = true) (hP : Filled R N c mem k) {f : PageId × K → BProg K V α}
    (h : ∀ mem' mid, Filled R N c mem' (k + 1) → Fills R (Fit R N) (f (R.ids k, mid)) mem' (k + 1) Q) :
    Fills R (Fit R N) ((splitInnerNode page).bind f) mem k Q := by
  simp only [splitInnerNode, Prog.bind_def, Prog.pure_def, Prog.bind_assoc]
  refine fills_asInner fun n hn => fills_check hR fun htwo => fills_createPage (fills_pinPage ?_)
  obtain ⟨hin, hpages⟩ : Fit R N (k + 1) (.inner n : BNode K V) := hP.created.fit page _ hn
  have hsize := hin.size_le
  have htwo : 2 ≤ n.size := by simpa using htwo
  have hright : Fit R N (k + 1) (.inner
      { pivots := moveTo n.pivots ((n.size - 1) / 2 + 1) n.size (fun _ => default) 0
        children := moveTo n.children ((n.size - 1) / 2 + 1) (n.size + 1) (fun _ => 0) 0
        size := n.size / 2 } : BNode K V) := by
    refine ⟨⟨by dsimp only; omega, ?_, ?_⟩, fun i => ?_⟩
    · exact moveTo_default (by omega) fun _ _ => rfl
    · exact moveTo_default (by omega) fun _ _ => rfl
    · dsimp only
      rw [moveTo_apply]
      split
      · exact hpages _
      · exact .inl rfl
  have hleft : Fit R N (k + 1) (.inner { n with size := n.size - n.size / 2 - 1 } : BNode K V) :=
    ⟨⟨by dsimp only; omega, hin.pivots, hin.children⟩, hpages⟩
  exact fills_write hright (fills_write hleft (h _ _ ((hP.created.write_inner hright).write_inner hleft)))

/-- The new page has the old root, and the root page is an inner node. -/
theorem fills_createRoot (hP : Filled R N c mem k) {mid : K} {root right : PageId}
    (hright : ∃ j < k, R.ids j = right) {f : PageId → BProg K V α}
    (h : ∀ d n, mem root = some d → Filled R N c (Function.update (Function.update mem (R.ids k) (some d)) root
        (some (.inner n))) (k + 1) →
      Fills R (Fit R N) (f (R.ids k)) (Function.update (Function.update mem (R.ids k) (some d)) root
        (some (.inner n))) (k + 1) Q) :
    Fills R (Fit R N) ((createRoot mid root right).bind f) mem k Q := by
  have hinner := N.inner_ge
  simp only [createRoot, Prog.bind_def, Prog.pure_def, Prog.bind_assoc]
  refine fills_createPage (fills_pinPage (fills_read fun d hd => ?_))
  have hnew : Fit R N (k + 1) (.inner (newRootNode mid (R.ids k) right) : BNode K V) := by
    refine ⟨⟨by simp only [newRootNode]; omega, ?_, ?_⟩, fun i => ?_⟩
    · exact update_default (by omega) fun _ _ => rfl
    · exact update_default (b := N.INNER_N + 1) (by omega)
        (update_default (b := N.INNER_N + 1) (by omega) fun _ _ => rfl)
    · simp only [newRootNode]
      by_cases h₁ : i = 1
      · obtain ⟨j, hj, e⟩ := hright
        rw [h₁, Function.update_self]
        exact .inr ⟨j, by omega, e⟩
      · rw [Function.update_of_ne h₁]
        by_cases h₀ : i = 0
        · rw [h₀, Function.update_self]
          exact .inr ⟨k, Nat.lt_succ_self k, rfl⟩
        · rw [Function.update_of_ne h₀]
          exact .inl rfl
  refine fills_write (hP.created.fit root d hd) (fills_write hnew (h d _ hd ?_))
  exact hP.created.move hd hnew

end Split

section Insert

variable [LinearOrder K] [DecidableEq V]

/-- The target leaf has a free slot. -/
theorem performInsert_fills (hP : Filled R N c mem k) {key : K} {value : V} {itPage target : PageId}
    {itIndex keyIndex : ℕ} {split : Bool} (hroom : ∀ l, mem target = some (.leaf l) → l.size < N.LEAF_N)
    (hi : keyIndex < N.LEAF_N) :
    Fills R (Fit R N) (performInsert key value itPage itIndex target keyIndex split) mem k
      fun _ mem' k' => Filled R N c mem' k' := by
  simp only [performInsert, Prog.bind_def, Prog.pure_def]
  refine fills_asLeaf fun n hn => ?_
  have hin : n.InBounds N := hP.fit target _ hn
  have hinsert := hin.insertPair (hroom n hn) hi key value
  have hlast : Fills R (Fit R N) ((PageProg.write target (.leaf (n.insertPair keyIndex key value))).bind fun _ =>
      (PageProg.unpinPage target true).bind fun _ => .ret true : BProg K V Bool) mem k
      fun _ mem' k' => Filled R N c mem' k' :=
    fills_write hinsert (fills_unpinPage (fills_ret (hP.write_leaf hn hinsert)))
  by_cases hk : keyIndex < n.size
  · rw [if_pos hk]
    refine fills_peek fun found => ?_
    split_ifs
    · exact fills_unpinPage (fills_ret hP)
    · have hset := hin.setValue hk value
      exact fills_write hset (fills_unpinPage (fills_ret (hP.write_leaf hn hset)))
    · exact hlast
  · rw [if_neg hk, Prog.ret_bind, if_neg Bool.false_ne_true]
    exact hlast

/-- What an attempt may add to the leaves. -/
def grown (exclusiveMode : Bool) (c : ℕ∞) : ℕ∞ := if exclusiveMode then c + 1 else c

theorem le_grown (e : Bool) (c : ℕ∞) : c ≤ grown e c := by
  cases e
  · exact le_rfl
  · exact le_self_add

omit [Inhabited K] in
/-- The key is not above the middle key, so that its index is in the left half. -/
theorem lowerBound_le_of_le {a : Slots K} {n i : ℕ} {key : K} (h : key ≤ a i) : lowerBound a n key ≤ i := by
  by_contra hlt
  exact absurd (lt_of_lt_lowerBound (not_le.mp hlt)) (not_lt.mpr h)

theorem insertIntoLeaf_fills (hR : R.asserts = true) (hP : Filled R N c mem k) {key : K} {value : V}
    {exclusiveMode dirty : Bool} {parent child : PageId} {np : BInnerNode K} {i : ℕ} {n : BLeafNode K V}
    (hn : mem child = some (.leaf n)) (hnp : Fit R N k (.inner np : BNode K V))
    (hroom : exclusiveMode = true → np.size < N.INNER_N) (hi : i ≤ np.size) :
    Fills R (Fit R N) (insertIntoLeaf N key value exclusiveMode parent dirty np i child n) mem k
      fun _ mem' k' => Filled R N (grown exclusiveMode c) mem' k' := by
  have hin : n.InBounds N := hP.fit child _ hn
  have hkey := lowerBound_le n.keys n.size key
  have hge := N.leaf_ge
  simp only [insertIntoLeaf, Prog.bind_def, Prog.pure_def]
  refine fills_check hR fun _ => ?_
  by_cases hfull : n.size = N.LEAF_N
  · rw [if_pos hfull]
    cases exclusiveMode with
    | false => exact fills_unpinPage (fills_ret hP)
    | true =>
      refine fills_splitLeafNode hR hP hn fun mem' l hP' hl hpos hlt hright hmid => ?_
      have hpivot := (hnp.mono (Nat.le_succ k)).insertPivot (hroom rfl) hi (n.keys ((n.size - 1) / 2))
        ⟨k, Nat.lt_succ_self k, rfl⟩
      refine fills_write hpivot (fills_unpinPage ?_)
      have hP'' : Filled R N (c + 1) (Function.update mem' parent (some (.inner _))) (k + 1) :=
        hP'.write_inner hpivot
      have hroomAt : ∀ id, (∀ r, mem' id = some (.leaf r) → r.size < N.LEAF_N) → ∀ r,
          Function.update mem' parent (some (.inner (np.insertPivot i (n.keys ((n.size - 1) / 2)) (R.ids k)))) id =
            some (.leaf r) → r.size < N.LEAF_N := by
        intro id hid r hr
        by_cases e : id = parent
        · rw [e, Function.update_self] at hr
          cases hr
        · exact hid r (by rwa [Function.update_of_ne e] at hr)
      dsimp only
      split_ifs with hle
      · refine fills_unpinPage (performInsert_fills hP'' (hroomAt child fun r hr => ?_) ?_)
        · obtain rfl : l = r := by simpa [hl] using hr
          exact hlt
        · have := lowerBound_le_of_le (n := n.size) hle
          omega
      · refine fills_asLeaf fun left hleft => fills_unpinPage (performInsert_fills hP'' (hroomAt _ hright) ?_)
        have hne : child ≠ parent := by
          rintro rfl
          simp at hleft
        obtain rfl : l = left := by simpa [Function.update_of_ne hne, hl] using hleft
        omega
  · have hlt : n.size < N.LEAF_N := lt_of_le_of_ne hin.size_le hfull
    rw [if_neg hfull]
    have hinsert : Fills R (Fit R N) (performInsert key value child (lowerBound n.keys n.size key) child
        (lowerBound n.keys n.size key) false) mem k fun _ mem' k' => Filled R N (grown exclusiveMode c) mem' k' := by
      refine performInsert_fills (hP.mono (le_grown _ _) le_rfl) (fun r hr => ?_) (hkey.trans_lt hlt)
      obtain rfl : n = r := by simpa [hn] using hr
      exact hlt
    cases exclusiveMode with
    | false => exact hinsert
    | true => exact fills_unpinPage hinsert

omit [DecidableEq V] in
theorem insertBelowInner_fills (hR : R.asserts = true) (hP : Filled R N c mem k) {key : K}
    {exclusiveMode dirty : Bool} {parent child : PageId} {np n : BInnerNode K} {i : ℕ}
    (hnp : Fit R N k (.inner np : BNode K V)) (hroom : exclusiveMode = true → np.size < N.INNER_N)
    (hi : i ≤ np.size) :
    Fills R (Fit R N) (insertBelowInner (V := V) N key exclusiveMode parent dirty np i child n) mem k
      fun _ mem' k' => Filled R N c mem' k' := by
  simp only [insertBelowInner, Prog.bind_def, Prog.pure_def]
  refine fills_check hR fun _ => ?_
  split_ifs with hfull hexclusive
  · refine fills_splitInnerNode hR hP fun mem' mid hP' => ?_
    have hpivot := (hnp.mono (Nat.le_succ k)).insertPivot (hroom hfull.2) hi mid ⟨k, Nat.lt_succ_self k, rfl⟩
    refine fills_write hpivot (fills_unpinPage ?_)
    dsimp only
    split_ifs
    · exact fills_unpinPage (fills_ret (hP'.write_inner hpivot))
    · exact fills_unpinPage (fills_ret (hP'.write_inner hpivot))
  · exact fills_unpinPage (fills_ret hP)
  · exact fills_ret hP

/-- What a round of the descent may leave. -/
def Rounded (R : PageRules) (N : NodeSizes) (exclusiveMode : Bool) (c : ℕ∞) (r : (PageId × Bool) ⊕ Bool)
    (mem : PageId → Option (BNode K V)) (k : ℕ) : Prop :=
  Filled R N (r.elim (fun _ => c) fun _ => grown exclusiveMode c) mem k

/-- The rest of a round, from the node of the child on. -/
theorem insertBelow_fills (hR : R.asserts = true) (hP : Filled R N c mem k) {key : K} {value : V}
    {exclusiveMode dirty : Bool} {parent child : PageId} {np : BInnerNode K} {i : ℕ} {d : BNode K V}
    (hd : mem child = some d) (hnp : Fit R N k (.inner np : BNode K V))
    (hroom : exclusiveMode = true → np.size < N.INNER_N) (hi : i ≤ np.size) :
    Fills R (Fit R N)
      (match d with
        | .leaf leafNode => (insertIntoLeaf N key value exclusiveMode parent dirty np i child leafNode).bind
            fun b => .ret (.inr b)
        | .inner innerNode => (insertBelowInner N key exclusiveMode parent dirty np i child innerNode).bind
            fun s => .ret (.inl s)) mem k (Rounded R N exclusiveMode c) := by
  cases d with
  | leaf n =>
    refine fills_bind ((insertIntoLeaf_fills hR hP hd hnp hroom hi).mono ?_)
    exact fun b mem' k' h => fills_ret h
  | inner n =>
    refine fills_bind ((insertBelowInner_fills hR hP hnp hroom hi).mono ?_)
    exact fun s mem' k' h => fills_ret h

/-- One round of the descent. -/
theorem insertTraversal_fills (hR : R.asserts = true) (hP : Filled R N c mem k) {key : K} {value : V}
    {exclusiveMode dirty : Bool} {parent : PageId} :
    Fills R (Fit R N) (insertTraversal N key value exclusiveMode (parent, dirty)) mem k
      (Rounded R N exclusiveMode c) := by
  simp only [insertTraversal, Prog.bind_def, Prog.pure_def]
  refine fills_asInner fun np hnp => fills_check hR fun hassert => fills_pinPage ?_
  have hroom : exclusiveMode = true → np.size < N.INNER_N := by
    rintro rfl
    simpa using hassert
  have hi := lowerBound_le np.pivots np.size key
  cases exclusiveMode with
  | false => exact fills_unpinPage (fills_read fun d hd => insertBelow_fills hR hP hd (hP.fit parent _ hnp) hroom hi)
  | true => exact fills_read fun d hd => insertBelow_fills hR hP hd (hP.fit parent _ hnp) hroom hi

theorem iter_insertTraversal_fills (hR : R.asserts = true) (hP : Filled R N c mem k) {key : K} {value : V}
    {exclusiveMode : Bool} {s : PageId × Bool} :
    Fills R (Fit R N) (Prog.iter (insertTraversal N key value exclusiveMode) s) mem k
      fun _ mem' k' => Filled R N (grown exclusiveMode c) mem' k' := by
  refine fills_iter (fun _ mem k => Filled R N c mem k) ?_ hP
  rintro ⟨parent, dirty⟩ mem k hP
  refine (insertTraversal_fills hR hP).mono ?_
  rintro (s' | b) mem' k' h
  · exact h
  · exact h

theorem handleRootInnerInsert_fills (hR : R.asserts = true) (hP : Filled R N c mem k) {key : K} {value : V}
    {root : PageId} {exclusiveMode : Bool} :
    Fills R (Fit R N) (handleRootInnerInsert N key value root exclusiveMode) mem k
      fun _ mem' k' => Filled R N (grown exclusiveMode c) mem' k' := by
  simp only [handleRootInnerInsert, Prog.bind_def]
  refine fills_getHeader fun header => fills_check hR fun _ => fills_asInner fun n hn => fills_check hR fun _ => ?_
  split_ifs
  · refine fills_splitInnerNode hR hP fun mem' mid hP' => ?_
    refine fills_createRoot hP' ⟨k, Nat.lt_succ_self k, rfl⟩ fun d n hd hP'' => fills_unpinPage ?_
    dsimp only
    split_ifs
    · exact fills_unpinPage (iter_insertTraversal_fills hR hP'')
    · exact fills_unpinPage (iter_insertTraversal_fills hR hP'')
  · exact iter_insertTraversal_fills hR hP

omit [DecidableEq V] in
theorem performRootInsert_fills (hP : Filled R N c mem k) {key : K} {value : V} {target : PageId} {keyIndex : ℕ}
    (hroom : ∀ l, mem target = some (.leaf l) → l.size < N.LEAF_N) (hi : keyIndex < N.LEAF_N) :
    Fills R (Fit R N) (performRootInsert key value target keyIndex) mem k
      fun _ mem' k' => Filled R N c mem' k' := by
  simp only [performRootInsert, Prog.bind_def]
  refine fills_asLeaf fun n hn => ?_
  have hin : n.InBounds N := hP.fit target _ hn
  split_ifs with h
  · have hset := hin.setValue h.1 value
    exact fills_write hset (fills_unpinPage_last (hP.write_leaf hn hset))
  · have hinsert := hin.insertPair (hroom n hn) hi key value
    exact fills_write hinsert (fills_unpinPage_last (hP.write_leaf hn hinsert))

theorem handleRootLeafInsert_fills (hR : R.asserts = true) (hP : Filled R N c mem k) {key : K} {value : V}
    {root : PageId} :
    Fills R (Fit R N) (handleRootLeafInsert N key value root) mem k
      fun _ mem' k' => Filled R N (c + 1) mem' k' := by
  have hc : c ≤ c + 1 := le_self_add
  have hge := N.leaf_ge
  simp only [handleRootLeafInsert, Prog.bind_def]
  refine fills_getHeader fun header => fills_check hR fun _ => fills_asLeaf fun n hn => ?_
  have hin : n.InBounds N := hP.fit root _ hn
  have hkey := lowerBound_le n.keys n.size key
  split_ifs with hfound hvalue hfull
  · have hset := hin.setValue hfound.1 value
    exact fills_write hset (fills_unpinPage_last ((hP.write_leaf hn hset).mono hc le_rfl))
  · exact fills_unpinPage_last (hP.mono hc le_rfl)
  · refine fills_check hR fun _ => fills_splitLeafNode hR hP hn fun mem' l hP' hl hpos hlt hright hmid => ?_
    refine fills_createRoot hP' ⟨k, Nat.lt_succ_self k, rfl⟩ fun d n' hd hP'' => ?_
    obtain rfl : d = .leaf l := by simpa [hl] using hd.symm
    refine fills_modifyHeader fun _ => fills_unpinPage ?_
    have hnew : ∀ r, Function.update (Function.update mem' (R.ids (k + 1)) (some (.leaf l))) root
        (some (.inner n')) (R.ids (k + 1)) = some (.leaf r) → l = r := by
      intro r hr
      have hne : R.ids (k + 1) ≠ root := by
        intro e
        rw [e, Function.update_self] at hr
        cases hr
      rw [Function.update_of_ne hne, Function.update_self] at hr
      exact BNode.leaf.inj (Option.some.inj hr)
    dsimp only
    split_ifs with hle
    · refine fills_unpinPage (performRootInsert_fills hP'' (fun r hr => hnew r hr ▸ hlt) ?_)
      have := lowerBound_le_of_le (n := n.size) hle
      omega
    · refine fills_asLeaf fun left hleft => fills_unpinPage (performRootInsert_fills hP'' (fun r hr => ?_) ?_)
      · have hne : R.ids k ≠ root := by
          intro e
          rw [e, Function.update_self] at hr
          cases hr
        have hids : R.ids k ≠ R.ids (k + 1) := fun e => absurd (R.ids_inj _ _ e) (Nat.ne_of_lt (Nat.lt_succ_self k))
        rw [Function.update_of_ne hne, Function.update_of_ne hids] at hr
        exact hright r hr
      · obtain rfl := hnew left hleft
        have := hin.size_le
        omega
  · have hlt : n.size < N.LEAF_N := lt_of_le_of_ne hin.size_le hfull
    refine fills_check hR fun _ => performRootInsert_fills (hP.mono hc le_rfl) (fun r hr => ?_) (hkey.trans_lt hlt)
    obtain rfl : n = r := by simpa [hn] using hr
    exact hlt

/-- `insert` creates one leaf at most. -/
theorem insert_fills (hR : R.asserts = true) (hP : Filled R N c mem k) (key : K) (value : V) :
    Fills R (Fit R N) (insert N key value) mem k fun _ mem' k' => Filled R N (c + 1) mem' k' := by
  simp only [insert, Prog.bind_def]
  refine fills_getHeader fun header => fills_pinPage (fills_read fun d hd => ?_)
  cases d with
  | leaf n => exact fills_getHeader fun _ => fills_check hR fun _ => handleRootLeafInsert_fills hR hP
  | inner n =>
    refine fills_getHeader fun _ => fills_check hR fun _ => ?_
    refine fills_bind ((handleRootInnerInsert_fills hR hP).mono fun success mem' k' hP' => ?_)
    split_ifs
    · refine fills_pinPage (fills_bind ((handleRootInnerInsert_fills hR hP').mono fun _ mem' k' hP'' => ?_))
      exact fills_ret hP''
    · exact fills_ret (hP'.mono le_self_add le_rfl)

end Insert

section Descend

variable [LinearOrder K]

omit [Inhabited K] [Inhabited V] in
/-- A descent writes nothing. -/
theorem iter_descend_fills {Ok : ℕ → BNode K V → Prop} {key : K} {mode : LatchMode (BNode K V)} {page : PageId} :
    Fills R Ok (Prog.iter (descend key mode) page) mem k fun _ mem' k' => mem' = mem ∧ k' = k := by
  refine fills_iter (fun _ mem' k' => mem' = mem ∧ k' = k) ?_ ⟨rfl, rfl⟩
  rintro page _ _ ⟨rfl, rfl⟩
  simp only [descend, Prog.bind_def, Prog.pure_def]
  refine fills_read fun d _ => ?_
  cases d with
  | leaf n => exact fills_ret ⟨rfl, rfl⟩
  | inner n => exact fills_pinPage (fills_unpinPage (fills_ret ⟨rfl, rfl⟩))

omit [Inhabited K] [Inhabited V] in
theorem descendToLeaf_fills {Ok : ℕ → BNode K V → Prop} {key : K} :
    Fills R Ok (descendToLeaf (V := V) key) mem k fun _ mem' k' => mem' = mem ∧ k' = k := by
  simp only [descendToLeaf, Prog.bind_def]
  refine fills_getHeader fun header => fills_pinPage (fills_read fun d _ => ?_)
  split_ifs
  · exact fills_unpinPage (fills_pinPage iter_descend_fills)
  · exact iter_descend_fills

theorem update_fills [Add V] (hP : Filled R N c mem k) (key : K) (value : V) :
    Fills R (Fit R N) (update key value) mem k fun _ mem' k' => Filled R N c mem' k' := by
  refine fills_bind (descendToLeaf_fills.mono ?_)
  rintro leaf _ _ ⟨rfl, rfl⟩
  refine fills_asLeaf fun n hn => ?_
  have hin : n.InBounds N := hP.fit leaf _ hn
  dsimp only
  split_ifs with h
  · have hset := hin.setValue h.1 (n.values (lowerBound n.keys n.size key) + value)
    exact fills_write hset (fills_unpinPage_last (hP.write_leaf hn hset))
  · exact fills_unpinPage_last hP

theorem erase_fills (hR : R.asserts = true) (hP : Filled R N c mem k) (key : K) :
    Fills R (Fit R N) (erase (V := V) key) mem k fun _ mem' k' => Filled R N c mem' k' := by
  refine fills_bind (descendToLeaf_fills.mono ?_)
  rintro leaf _ _ ⟨rfl, rfl⟩
  refine fills_asLeaf fun n hn => ?_
  have hin : n.InBounds N := hP.fit leaf _ hn
  dsimp only
  split_ifs
  · have herase := hin.erase (lowerBound n.keys n.size key)
    exact fills_check hR fun _ => fills_write herase (fills_unpinPage_last (hP.write_leaf hn herase))
  · exact fills_unpinPage_last hP

omit [Inhabited K] [Inhabited V] in
theorem find_fills {Ok : ℕ → BNode K V → Prop} (key : K) :
    Fills R Ok (find (V := V) key) mem k fun _ mem' k' => mem' = mem ∧ k' = k := by
  simp only [find, Prog.bind_def, Prog.pure_def]
  refine fills_getHeader fun header => fills_pinPage (fills_bind (iter_descend_fills.mono ?_))
  rintro leaf _ _ ⟨rfl, rfl⟩
  exact fills_asLeaf fun n _ => fills_unpinPage (fills_ret ⟨rfl, rfl⟩)

end Descend

end BEpsilon.BTree
