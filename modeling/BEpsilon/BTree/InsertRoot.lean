import BEpsilon.BTree.Insert

/-!
# BEpsilon.BTree.InsertRoot — correctness of `insert` from the root

The root cases: a full inner root is split before the exclusive descent, a full root leaf is split
into two leaves, and in both the root page becomes the new root over the halves.  `insert_spec` puts
the two descents together.
-/

namespace BEpsilon.BTree

open Slots PageWorld

variable {K V : Type} [LinearOrder K] [Inhabited K] [Inhabited V] [DecidableEq V]
variable {N : NodeSizes} {R : PageRules} {mem : PageId → Option (BNode K V)} {created H : ℕ}
  {header : Header} {pg : ℕ → K → PageId} {L : K → Option V} {recent : List PageId}

variable (hlim : ∀ n ∈ R.limit, 3 ≤ n)

section Inner

include hlim

/-- A full inner root is split and gets a new level, then the exclusive descent puts the pair. -/
theorem runs_handleRootInnerInsert_split (hT : TreeInv R.ids N mem header created H pg L)
    (hH : 0 < H) {key : K} {value : V} {t : BInnerNode K}
    (ht : mem header.rootID = some (.inner t)) (hfull : t.size = N.INNER_N) :
    Runs (handler R) (handleRootInnerInsert N key value header.rootID true)
      ⟨mem, created, header, [(header.rootID, mem header.rootID)], recent, True⟩
      fun b w => b = true ∧ AtRest R N header.rootID (Function.update L key (some value)) w := by
  obtain ⟨n, rfl⟩ : ∃ n, H = n + 1 := ⟨H - 1, by omega⟩
  have h3 : 3 ≤ t.size := hfull ▸ N.inner_ge
  have hle : t.size ≤ N.INNER_N := hfull.le
  have hb : R.ids created ≠ header.rootID := by
    rw [← hT.routed.top key]
    exact (hT.fresh_page R.ids_inj le_rfl le_rfl key).symm
  have ha : R.ids (created + 1) ≠ header.rootID := by
    rw [← hT.routed.top key]
    exact (hT.fresh_page R.ids_inj (by omega) le_rfl key).symm
  have hab : R.ids (created + 1) ≠ R.ids created := fun e => by
    have := R.ids_inj _ _ e
    omega
  let mid := t.pivots ((t.size - 1) / 2)
  let mem₁ := Function.update (Function.update mem (R.ids created) (some (.inner t.rightHalf)))
    header.rootID (some (.inner t.leftHalf))
  let mem₂ := Function.update (Function.update mem₁ (R.ids (created + 1))
    (some (.inner t.leftHalf))) header.rootID
    (some (.inner (newRootNode mid (R.ids (created + 1)) (R.ids created))))
  have hroot : mem₂ header.rootID =
      some (.inner (newRootNode mid (R.ids (created + 1)) (R.ids created))) := by simp [mem₂]
  have hl : mem₂ (R.ids (created + 1)) = some (.inner t.leftHalf) := by simp [mem₂, ha]
  have hr : mem₂ (R.ids created) = some (.inner t.rightHalf) := by
    simp [mem₂, mem₁, hb, hab.symm]
  have hls : (mem₂ (R.ids (created + 1))).isSome := by rw [hl]; rfl
  have hrs : (mem₂ (R.ids created)).isSome := by rw [hr]; rfl
  have hT₂ := hT.grow_inner hH R.ids_inj rfl rfl ht (s := (t.size - 1) / 2) (by omega)
    (by omega) hroot hl hr fun id h₁ h₂ h₃ => by simp [mem₂, mem₁, h₁, h₂, h₃]
  simp only [handleRootInnerInsert, Prog.bind_def]
  refine runs_getHeader (runs_check (by simp) ?_)
  refine runs_asInner ht (.inl ⟨_, List.mem_cons_self⟩) (runs_check (by simp [hle]) ?_)
  rw [if_pos ⟨hfull, trivial⟩]
  refine runs_splitInnerNode ⟨_, List.mem_cons_self⟩ (hT.fresh_mem R.ids_inj le_rfl)
    (by simp [hb.symm]) (le_limit hlim (by simp)) ht (by omega) ?_
  refine runs_createRoot ⟨mem header.rootID, by simp⟩ ?_ (by simp [hab.symm, ha.symm])
    (le_limit hlim (by simp)) (d := .inner t.leftHalf) (by simp) ?_
  · simp [ha, hab, hT.fresh_mem R.ids_inj (Nat.le_succ created)]
  refine runs_unpin_third ha hb (by simp) (.inl rfl) ?_
  split
  next hk =>
    refine runs_unpin_second hab hrs (.inl rfl) ?_
    refine iter_insertTraversal_exclusive hlim (n := n) ⟨⟨_, _, hT₂, by omega, ?_⟩,
      ⟨_, hl, by simp only [BInnerNode.leftHalf]; omega⟩, ⟨_, rfl, .inl rfl⟩, rfl, rfl⟩
    rw [Routed.growPg_new, TreeInv.rootSide_left hk]
  next hk =>
    refine runs_unpin_head hls (.inl rfl) ?_
    refine iter_insertTraversal_exclusive hlim (n := n) ⟨⟨_, _, hT₂, by omega, ?_⟩,
      ⟨_, hr, by simp only [BInnerNode.rightHalf]; omega⟩, ⟨_, rfl, .inl rfl⟩, rfl, rfl⟩
    rw [Routed.growPg_new, TreeInv.rootSide_right (not_le.mp hk)]

theorem runs_handleRootInnerInsert_exclusive (hT : TreeInv R.ids N mem header created H pg L)
    (hH : 0 < H) {key : K} {value : V} :
    Runs (handler R) (handleRootInnerInsert N key value header.rootID true)
      ⟨mem, created, header, [(header.rootID, mem header.rootID)], recent, True⟩
      fun b w => b = true ∧ AtRest R N header.rootID (Function.update L key (some value)) w := by
  obtain ⟨n, rfl⟩ : ∃ n, H = n + 1 := ⟨H - 1, by omega⟩
  obtain ⟨t, ht, htok, -⟩ := hT.inner_page (h := n) (by omega) key
  rw [hT.routed.top] at ht
  by_cases hfull : t.size = N.INNER_N
  · exact runs_handleRootInnerInsert_split hlim hT hH ht hfull
  simp only [handleRootInnerInsert, Prog.bind_def]
  refine runs_getHeader (runs_check (by simp) ?_)
  refine runs_asInner ht (.inl ⟨_, List.mem_cons_self⟩) (runs_check (by simp [htok.size_le]) ?_)
  rw [if_neg (by simp [hfull])]
  exact iter_insertTraversal_exclusive hlim (n := n) ⟨⟨_, _, hT, le_rfl, (hT.routed.top _).symm⟩,
    ⟨t, ht, lt_of_le_of_ne htok.size_le hfull⟩, ⟨_, rfl, .inr rfl⟩, rfl, rfl⟩

theorem runs_handleRootInnerInsert_optimistic (hT : TreeInv R.ids N mem header created H pg L)
    (hH : 0 < H) {key : K} {value : V} :
    Runs (handler R) (handleRootInnerInsert N key value header.rootID false)
      ⟨mem, created, header, [(header.rootID, mem header.rootID)], recent, True⟩ fun b w' =>
      if b = true then AtRest R N header.rootID (Function.update L key (some value)) w'
      else ∃ recent', w' = ⟨mem, created, header, [], recent', True⟩ := by
  obtain ⟨n, rfl⟩ : ∃ n, H = n + 1 := ⟨H - 1, by omega⟩
  obtain ⟨t, ht, htok, -⟩ := hT.inner_page (h := n) (by omega) key
  rw [hT.routed.top] at ht
  simp only [handleRootInnerInsert, Prog.bind_def]
  refine runs_getHeader (runs_check (by simp) ?_)
  refine runs_asInner ht (.inl ⟨_, List.mem_cons_self⟩) (runs_check (by simp [htok.size_le]) ?_)
  rw [if_neg (by simp)]
  have h := iter_insertTraversal_optimistic hlim hT key value recent false le_rfl
  rwa [hT.routed.top] at h

end Inner

section Leaf

variable {page : PageId} {Q : Unit → PageWorld (BNode K V) Header → Prop}

omit [Inhabited K] [Inhabited V] [DecidableEq V] in
/-- The end of `handleRootLeafInsert`, with the key index of the target leaf. -/
theorem runs_performRootInsert {key : K} {value : V} {t : BLeafNode K V} {s : Option (BNode K V)}
    {keyIndex : ℕ} (hm : mem page = some (.leaf t)) (ht : LeafOk N t) (hidx : keyIndex = t.index key)
    (hroom : t.get key = none → t.size < N.LEAF_N)
    (h : ∀ t' recent', LeafSet N t t' key (some value) → Q ()
      ⟨Function.update mem page (some (.leaf t')), created, header, [], recent', True⟩) :
    Runs (handler R) (performRootInsert key value page keyIndex)
      ⟨mem, created, header, [(page, s)], recent, True⟩ Q := by
  subst hidx
  have hput : ∀ t', LeafSet N t t' key (some value) →
      Runs (handler R) ((PageProg.write page (.leaf t')).bind fun _ => PageProg.unpinPage page true)
        ⟨mem, created, header, [(page, s)], recent, True⟩ Q := fun t' hs =>
    runs_write ⟨s, List.mem_singleton_self _⟩ (runs_unpin_last (by simp) (.inl rfl) (h _ _ hs))
  simp only [performRootInsert, Prog.bind_def]
  refine runs_asLeaf hm (.inl ⟨s, List.mem_singleton_self _⟩) ?_
  split
  next hk => exact hput _ (LeafSet.overwrite ht hk)
  next hk => exact hput _ (LeafSet.insertPair ht hk (hroom (ht.get_eq_none hk)))

include hlim

/-- A full root leaf that does not hold the key becomes a root over two leaves, one of which takes
the pair. -/
theorem runs_handleRootLeafInsert_split (hT : TreeInv R.ids N mem header created 0 pg L) {key : K}
    {value : V} {t : BLeafNode K V} (ht : mem header.rootID = some (.leaf t))
    (hfull : t.size = N.LEAF_N) (hk : ¬ (t.index key < t.size ∧ t.keys (t.index key) = key)) :
    Runs (handler R) (handleRootLeafInsert N key value header.rootID)
      ⟨mem, created, header, [(header.rootID, mem header.rootID)], recent, True⟩
      fun _ w => AtRest R N header.rootID (Function.update L key (some value)) w := by
  have h2 : 2 ≤ t.size := hfull ▸ N.leaf_ge
  have htok : LeafOk N t := hT.nodes _ _ ht
  have hhalf := htok.halves h2
  have hb : R.ids created ≠ header.rootID := by
    rw [← hT.routed.top key]
    exact (hT.fresh_page R.ids_inj le_rfl le_rfl key).symm
  have ha : R.ids (created + 1) ≠ header.rootID := by
    rw [← hT.routed.top key]
    exact (hT.fresh_page R.ids_inj (by omega) le_rfl key).symm
  have hab : R.ids (created + 1) ≠ R.ids created := fun e => by
    have := R.ids_inj _ _ e
    omega
  let mem₁ := Function.update (Function.update mem (R.ids created) (some (.leaf t.rightHalf)))
    header.rootID (some (.leaf t.leftHalf))
  let mem₂ := Function.update (Function.update mem₁ (R.ids (created + 1))
    (some (.leaf t.leftHalf))) header.rootID
    (some (.inner (newRootNode t.middleKey (R.ids (created + 1)) (R.ids created))))
  have hroot : mem₂ header.rootID =
      some (.inner (newRootNode t.middleKey (R.ids (created + 1)) (R.ids created))) := by
    simp [mem₂]
  have hl : mem₂ (R.ids (created + 1)) = some (.leaf t.leftHalf) := by simp [mem₂, ha]
  have hr : mem₂ (R.ids created) = some (.leaf t.rightHalf) := by
    simp [mem₂, mem₁, hb, hab.symm]
  have hls : (mem₂ (R.ids (created + 1))).isSome := by rw [hl]; rfl
  have hrs : (mem₂ (R.ids created)).isSome := by rw [hr]; rfl
  have hup : t.middleKey < t.keys ((t.size - 1) / 2 + 1) :=
    htok.sorted _ _ (by omega) (by omega)
  have hT₂ := hT.grow_leaf R.ids_inj rfl rfl hup ht hroot hl hr
    (fun id h₁ h₂ h₃ => by simp [mem₂, mem₁, h₁, h₂, h₃]) hhalf.left_ok hhalf.right_ok
    (fun x hx => (hhalf.left_keys x hx).2) (fun x hx => (hhalf.right_keys x hx).2)
    hhalf.left_get hhalf.right_get
  simp only [handleRootLeafInsert, Prog.bind_def]
  refine runs_getHeader (runs_check (by simp) (runs_asLeaf ht (.inl ⟨_, List.mem_cons_self⟩) ?_))
  rw [if_neg (show ¬ (lowerBound t.keys t.size key < t.size ∧
    t.keys (lowerBound t.keys t.size key) = key) from hk)]
  refine runs_check (by simp [htok.size_le]) ?_
  rw [if_pos hfull]
  refine runs_splitLeafNode ⟨_, List.mem_cons_self⟩ (hT.fresh_mem R.ids_inj le_rfl)
    (by simp [hb.symm]) (le_limit hlim (by simp)) ht h2 ?_
  refine runs_createRoot ⟨mem header.rootID, by simp⟩ ?_ (by simp [hab.symm, ha.symm])
    (le_limit hlim (by simp)) (d := .leaf t.leftHalf) (by simp) ?_
  · simp [ha, hab, hT.fresh_mem R.ids_inj (Nat.le_succ created)]
  refine runs_modifyHeader (runs_unpin_third ha hb (by simp) (.inl rfl) ?_)
  split
  next hkm =>
    obtain ⟨hidx, -⟩ := LeafOk.index_left h2 hkm
    refine runs_unpin_second hab hrs (.inl rfl) ?_
    refine runs_performRootInsert hl hhalf.left_ok hidx.symm (fun _ => hhalf.left_lt)
      fun t' recent' hs => atRest_put _ hT₂ ?_ hl hs
    rw [Routed.growPg_new, TreeInv.rootSide_left hkm]
  next hkm =>
    obtain ⟨hidx, -⟩ := htok.index_right h2 (not_le.mp hkm)
    refine runs_asLeaf hl (.inl ⟨_, List.mem_cons_self⟩) ?_
    refine runs_unpin_head hls (.inl rfl) ?_
    refine runs_performRootInsert hr hhalf.right_ok hidx.symm (fun _ => hhalf.right_lt)
      fun t' recent' hs => atRest_put _ hT₂ ?_ hr hs
    rw [Routed.growPg_new, TreeInv.rootSide_right (not_le.mp hkm)]

theorem runs_handleRootLeafInsert (hT : TreeInv R.ids N mem header created 0 pg L) {key : K}
    {value : V} :
    Runs (handler R) (handleRootLeafInsert N key value header.rootID)
      ⟨mem, created, header, [(header.rootID, mem header.rootID)], recent, True⟩
      fun _ w => AtRest R N header.rootID (Function.update L key (some value)) w := by
  obtain ⟨t, ht, htok, -⟩ := hT.leaf_page key
  have hpg : header.rootID = pg 0 key := (hT.routed.top key).symm
  rw [← hpg] at ht
  by_cases hk : t.index key < t.size ∧ t.keys (t.index key) = key
  · simp only [handleRootLeafInsert, Prog.bind_def]
    refine runs_getHeader (runs_check (by simp) (runs_asLeaf ht (.inl ⟨_, List.mem_cons_self⟩) ?_))
    rw [if_pos (show lowerBound t.keys t.size key < t.size ∧
      t.keys (lowerBound t.keys t.size key) = key from hk)]
    split
    next hv =>
      exact runs_write ⟨_, List.mem_cons_self⟩ (runs_unpin_last (by simp) (.inl rfl)
        (atRest_put _ hT hpg ht (LeafSet.overwrite htok hk)))
    next hv =>
      refine runs_unpin_last (by simp [ht]) (.inr rfl) ?_
      have hs := LeafSet.same htok key
      rw [LeafOk.get_eq_some hk, show t.values (t.index key) = value from not_not.mp hv] at hs
      have h := atRest_put (header.rootID :: recent) hT hpg ht hs
      rwa [show Function.update mem header.rootID (some (.leaf t)) = mem by
        rw [← ht]; exact Function.update_eq_self _ _] at h
  by_cases hfull : t.size = N.LEAF_N
  · exact runs_handleRootLeafInsert_split hlim hT ht hfull hk
  simp only [handleRootLeafInsert, Prog.bind_def]
  refine runs_getHeader (runs_check (by simp) (runs_asLeaf ht (.inl ⟨_, List.mem_cons_self⟩) ?_))
  rw [if_neg (show ¬ (lowerBound t.keys t.size key < t.size ∧
    t.keys (lowerBound t.keys t.size key) = key) from hk)]
  refine runs_check (by simp [htok.size_le]) ?_
  rw [if_neg hfull]
  exact runs_performRootInsert ht htok rfl (fun _ => lt_of_le_of_ne htok.size_le hfull)
    fun t' recent' hs => atRest_put _ hT hpg ht hs

end Leaf

include hlim

/-- `insert` sets `key` to `value`. -/
theorem insert_spec {root : PageId} {w : PageWorld (BNode K V) Header} (hw : AtRest R N root L w)
    (key : K) (value : V) :
    Runs (handler R) (insert N key value) w fun _ w' =>
      AtRest R N root (Function.update L key (some value)) w' := by
  obtain ⟨mem, created, header, pins, recent, kept⟩ := w
  obtain ⟨⟨H, pg, hT⟩, rfl, rfl, hkept⟩ := hw
  obtain rfl : kept = True := eq_true hkept
  simp only at hT
  have hsome : mem header.rootID ≠ none := by
    rw [← hT.routed.top key]
    exact hT.mem_page le_rfl key
  have hcs : (mem header.rootID).isSome = !false := by simpa [Option.isSome_iff_ne_none] using hsome
  simp only [insert, Prog.bind_def]
  refine runs_getHeader (runs_pinPage (by simp) (le_limit hlim (by simp)) hcs (hT.known _ hsome) ?_)
  rcases Nat.eq_zero_or_pos H with rfl | hH
  · obtain ⟨t, ht, -, -⟩ := hT.leaf_page key
    rw [hT.routed.top] at ht
    refine runs_read ht (.inl ⟨_, List.mem_cons_self⟩) (runs_getHeader (runs_check ?_ ?_))
    · exact fun _ => hT.flag.mpr rfl
    · exact runs_handleRootLeafInsert hlim hT
  · obtain ⟨n, rfl⟩ : ∃ n, H = n + 1 := ⟨H - 1, by omega⟩
    obtain ⟨t, ht, -, -⟩ := hT.inner_page (h := n) (by omega) key
    rw [hT.routed.top] at ht
    refine runs_read ht (.inl ⟨_, List.mem_cons_self⟩) (runs_getHeader (runs_check ?_ (runs_bind ?_)))
    · intro _
      simpa using mt hT.flag.mp (by omega)
    refine (runs_handleRootInnerInsert_optimistic hlim hT hH).mono fun b w' h => ?_
    cases b with
    | true => exact runs_ret (by simpa using h)
    | false =>
      obtain ⟨recent', rfl⟩ := by simpa using h
      refine runs_pinPage (by simp) (le_limit hlim (by simp)) hcs (hT.known _ hsome) (runs_bind ?_)
      exact (runs_handleRootInnerInsert_exclusive hlim hT hH).mono fun b w' h => runs_ret h.2

end BEpsilon.BTree
