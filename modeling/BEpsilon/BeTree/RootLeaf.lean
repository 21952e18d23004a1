import BEpsilon.BeTree.RootUpsert

/-!
# BEpsilon.BeTree.RootLeaf — messages while the root page is a leaf

`handleRootLeafUpsert` applies the message to the leaf.  A full leaf is split, and its halves get a root
node above them, which takes the place of the leaf.
-/

namespace BEpsilon.BeTree

open Slots Keyed PageWorld

variable {K V : Type} [LinearOrder K] [Add V]

/-- The pages after the leaf of the page `rootPage` has been split: its halves are on the pages `a` and `b`. -/
def rootLeafSplit (mem : PageId → Option (BeNode K V)) (M : PageId → Leftover K V) (rootPage a b : PageId)
    (t : BeLeafNode K V) (mid : K) : PageId → Option (BeNode K V) :=
  Function.update (Function.update (Function.update (Function.update mem b
    (some (.leaf (t.rightHalf (M b) mid)))) rootPage (some (.leaf (t.leftHalf mid)))) a
    (some (.leaf (t.leftHalf mid)))) rootPage (some (.root (newRootNode (M a) mid a b)))

section RootLeafSplit

variable {mem : PageId → Option (BeNode K V)} {M : PageId → Leftover K V} {rootPage a b : PageId}
  {t : BeLeafNode K V} {mid : K}

omit [Add V] in
variable (mem M b t mid) in
theorem rootLeafSplit_left (ha : rootPage ≠ a) :
    rootLeafSplit mem M rootPage a b t mid a = some (.leaf (t.leftHalf mid)) := by
  rw [rootLeafSplit, Function.update_of_ne ha.symm, Function.update_self]

omit [Add V] in
variable (mem M t mid) in
theorem rootLeafSplit_right (hb : rootPage ≠ b) (hab : b ≠ a) :
    rootLeafSplit mem M rootPage a b t mid b = some (.leaf (t.rightHalf (M b) mid)) := by
  rw [rootLeafSplit, Function.update_of_ne hb.symm, Function.update_of_ne hab, Function.update_of_ne hb.symm,
    Function.update_self]

end RootLeafSplit

/-- The leaf on the root page is split below a new root node. -/
theorem Keeps.split_root_leaf {ids : ℕ → PageId} {N : NodeSizes} {A : Prop} {T : K → ℕ} {C : K → Option V}
    {mem : PageId → Option (BeNode K V)} {M : PageId → Leftover K V} {header : Header} {created : ℕ}
    {pg : ℕ → K → PageId} (hK : Keeps ids N A T C mem noFlight header created 0 pg)
    (hinj : ∀ i j, ids i = ids j → i = j)
    (hN : 1 ≤ N.ROOT_N) {t : BeLeafNode K V} {mid x : K} (ht : mem header.rootID = some (.leaf t))
    (hs : Sorted t.keys t.size) (hl : (t.leftHalf mid).size ≤ N.LEAF_N)
    (hr : (t.rightHalf (M (ids created)) mid).size ≤ N.LEAF_N) (hx : mid < x) (h₀ : header.rootID ≠ ids created)
    (h₁ : header.rootID ≠ ids (created + 1)) (h₀₁ : ids created ≠ ids (created + 1)) :
    Keeps ids N A T C (rootLeafSplit mem M header.rootID (ids (created + 1)) (ids created) t mid) noFlight
      { header with rootLeaf := false } (created + 2) 1
      (Routed.growPg pg 0 header.rootID fun k => ids (created + if k ≤ mid then 1 else 0)) := by
  have hT := hK.inv
  have hG : RootGrown ids N mem (rootLeafSplit mem M header.rootID (ids (created + 1)) (ids created) t mid)
      header.rootID created 0 pg 2 fun k => if k ≤ mid then 1 else 0 := by
    refine rootGrown_leaf hT hinj hN ht (halves_of_cut hs _ mid) hl hr hx (Function.update_self _ _ _)
      (rootLeafSplit_left _ _ _ _ _ h₁) (rootLeafSplit_right _ _ _ _ h₀ h₀₁) fun id e₁ e₂ e₃ => ?_
    rw [rootLeafSplit, Function.update_of_ne e₁, Function.update_of_ne e₂, Function.update_of_ne e₁,
      Function.update_of_ne e₃]
  exact ⟨hG.treeInv hT hinj, fun a => hG.held hT hinj (hK.held a)⟩

section Routine

variable [BoundedOrder K] [DecidableEq V] [Inhabited K] [Inhabited V]
variable {R : PageRules} {N : NodeSizes} {A : Prop} {T T' : K → ℕ} {C : K → Option V} {header : Header}
  {kept : Prop} {mem : PageId → Option (BeNode K V)} {created : ℕ} {recent : List PageId}
  {pg : ℕ → K → PageId} {u : Upsert K V} {t : BeLeafNode K V}

/-- The world between two calls, with a tree in which no page has a buffer. -/
structure AtRestLow (R : PageRules) (N : NodeSizes) (A : Prop) (T : K → ℕ) (C : K → Option V) (header : Header)
    (kept : Prop) (w : PageWorld (BeNode K V) Header) : Prop extends AtRest R N A T C header kept w where
  low : ∃ H ≤ 1, ∃ pg, Keeps R.ids N A T C w.mem noFlight w.header w.created H pg

omit [Inhabited K] [Inhabited V] [BoundedOrder K] [DecidableEq V] in
theorem AtRestLow.of_keeps {w : PageWorld (BeNode K V) Header} {H : ℕ} (hH : H ≤ 1)
    (hK : Keeps R.ids N A T C w.mem noFlight w.header w.created H pg) (hpins : w.pins = [])
    (hid : w.header.rootID = header.rootID) (hst : w.header.currentTimeStamp = header.currentTimeStamp)
    (hleaf : w.header.rootLeaf = true → header.rootLeaf = true) (hkept : kept → w.kept) :
    AtRestLow R N A T C header kept w :=
  ⟨⟨⟨H, pg, hK⟩, hpins, hid, hst, hleaf, hkept⟩, H, hH, pg, hK⟩

omit [Inhabited K] [Inhabited V] [BoundedOrder K] [DecidableEq V] in
/-- The insertion into a leaf that has room and does not have the key. -/
theorem performRootInsert_spec {page : PageId} {s : Option (BeNode K V)} {keyIndex : ℕ} {header₀ : Header}
    {H : ℕ} (hK : Keeps R.ids N A T C mem noFlight header created H pg) (hH : H ≤ 1) (hT : A → T ≤ T')
    (hi : u.type = .INSERT) (hpage : pg 0 u.key = page) (ht : mem page = some (.leaf t))
    (hfound : ¬ t.Found u.key) (hidx : t.index u.key = keyIndex) (hsize : (t.perform u).size ≤ N.LEAF_N)
    (hid : header.rootID = header₀.rootID) (hst : header.currentTimeStamp = header₀.currentTimeStamp)
    (hleaf : header.rootLeaf = true → header₀.rootLeaf = true) :
    Runs (handler R) (performRootInsert u page keyIndex) ⟨mem, created, header, [(page, s)], recent, kept⟩
      fun _ w' => AtRestLow R N A T' (Function.update C u.key (u.effect (C u.key))) header₀ kept w' := by
  have hperform : t.perform u = t.insertPair keyIndex u.key u.value := by
    rw [BeLeafNode.perform, hi, ← hidx]
    exact if_neg hfound
  subst hpage
  have hset := hK.set_entry hH hT ht hsize
  rw [hperform] at hset
  simp only [performRootInsert, Prog.bind_def]
  refine runs_asLeaf ht (.inl ⟨s, List.mem_cons_self⟩) (runs_write ⟨s, List.mem_cons_self⟩ ?_)
  exact runs_unpin_last (by simp) (.inl rfl) (.of_keeps hH hset rfl hid hst hleaf id)

variable (hlim : R.limit = none) (hN : N.Roomy)
include hlim hN

omit [DecidableEq V] in
/-- A full leaf is split below a new root node before it takes a new pair. -/
theorem handleRootLeafUpsert_split (hK : Keeps R.ids N A T C mem noFlight header created 0 pg)
    (hT : A → T ≤ T') (hi : u.type = .INSERT) (hok : LeafOk N t) (ht : mem header.rootID = some (.leaf t))
    (hf : ¬ t.Found u.key) (hfull : t.size = N.LEAF_N) :
    Runs (handler R)
      ((medianKeyOf t [u]).bind fun medianKey => (splitLeafNode O header.rootID medianKey).bind fun x =>
        (createRoot O x.2 header.rootID x.1).bind fun newRoot =>
          if u.key ≤ x.2 then
            (PageProg.unpinPage x.1 true).bind fun _ =>
              performRootInsert u newRoot (lowerBound t.keys t.size u.key)
          else (asLeaf newRoot).bind fun newRootNode => (PageProg.unpinPage newRoot true).bind fun _ =>
            performRootInsert u x.1 (lowerBound t.keys t.size u.key - newRootNode.size))
      ⟨mem, created, header, [(header.rootID, mem header.rootID)], recent, kept⟩ fun _ w' =>
        AtRestLow R N A T' (Function.update C u.key (u.effect (C u.key))) header kept w' := by
  have htop : ∀ k, pg 0 k = header.rootID := hK.inv.routed.top
  have hge := hN.leaf_ge
  have hroot := hN.root_ge
  have hinner := N.inner_ge
  have hone : KeysSorted Upsert.key [u] := List.pairwise_singleton _ _
  have hlen : [u].length = 1 := rfl
  have h₀ : header.rootID ≠ R.ids created :=
    htop u.key ▸ hK.inv.fresh_page R.ids_inj le_rfl le_rfl u.key
  have h₁ : header.rootID ≠ R.ids (created + 1) :=
    htop u.key ▸ hK.inv.fresh_page R.ids_inj (Nat.le_succ _) le_rfl u.key
  have h₀₁ : R.ids created ≠ R.ids (created + 1) := fun e => by
    have := R.ids_inj _ _ e
    omega
  have hm₀ : mem (R.ids created) = none := (hK.inv.fresh_mem R.ids_inj le_rfl).1
  have hm₁ : mem (R.ids (created + 1)) = none := (hK.inv.fresh_mem R.ids_inj (Nat.le_succ _)).1
  refine runs_medianKeyOf hok.sorted hone (Nat.le_add_left _ _) fun mid x y hcut => ?_
  obtain ⟨-, z, -, hz⟩ := hK.inv.cut_keys (v := [u])
    (show mem (pg 0 u.key) = some (.leaf t) by rw [htop, ht]) hone (by simp [htop]) hcut (by omega)
  obtain ⟨hfl, hfr⟩ := fits_halves N (O.memory (R.ids created)) hok.sorted hcut (by omega)
  have hhalves := halves_of_cut hok.sorted (O.memory (R.ids created)) mid
  have hK' := hK.split_root_leaf (M := O.memory) R.ids_inj (by omega) ht hok.sorted hfl.size_le hfr.size_le hz h₀ h₁ h₀₁
  refine runs_splitLeafNode ⟨_, List.mem_cons_self⟩ hm₀ (by simpa using h₀) hlim ht (by omega) ?_
  simp only [createRoot, Prog.bind_def, Prog.pure_def, Prog.bind_assoc, Prog.ret_bind]
  refine runs_createPage (runs_pinPage ?_ (by simp [hlim]) ?_ ⟨created + 1, by omega, rfl⟩ ?_)
  · simp [h₀₁, h₁]
  · rw [Function.update_of_ne h₁.symm, Function.update_of_ne h₀₁.symm, hm₁]
    rfl
  have hpinned : ∀ {s}, ∃ s', (header.rootID, s') ∈ ((R.ids (created + 1), s) ::
      (R.ids created, none) :: [(header.rootID, mem header.rootID)] :
        List (PageId × Option (BeNode K V))) := ⟨mem header.rootID, by simp⟩
  refine runs_read (Function.update_self _ _ _) (.inl hpinned) (runs_write ⟨_, List.mem_cons_self⟩
    (runs_write hpinned (runs_modifyHeader ?_)))
  refine runs_unpin_third h₁.symm h₀.symm (by simp) (.inl rfl) ?_
  have hnf : ∀ half : BeLeafNode K V, Sorted half.keys half.size → half.get u.key = t.get u.key →
      ¬ half.Found u.key := fun half hs hget => by
    rw [found_iff_get hs, hget, ← found_iff_get hok.sorted]
    exact hf
  have hleft := rootLeafSplit_left mem O.memory (R.ids created) t mid h₁
  have hright := rootLeafSplit_right mem O.memory t mid h₀ h₀₁
  split
  next hle =>
    rw [List.filter_cons, if_pos (by simpa using hle)] at hfl
    refine runs_unpin_second h₀₁.symm (Option.isSome_of_eq_some hright) (.inl rfl) ?_
    refine performRootInsert_spec hK' le_rfl hT hi ?_ hleft (hnf _ hhalves.left_sorted (hhalves.left_get _ hle))
      (index_leftHalf hok.sorted hle) hfl.2.size_le rfl rfl (by simp)
    rw [Routed.growPg_new, if_pos hle]
  next hlt =>
    have hlt := not_le.mp hlt
    rw [List.filter_cons, if_pos (by simpa using hlt)] at hfr
    refine runs_asLeaf hleft (.inl ⟨_, List.mem_cons_self⟩) ?_
    refine runs_unpin_head (Option.isSome_of_eq_some hleft) (.inl rfl) ?_
    refine performRootInsert_spec hK' le_rfl hT hi ?_ hright (hnf _ hhalves.right_sorted
      (hhalves.right_get _ hlt)) ?_ hfr.2.size_le rfl rfl (by simp)
    · rw [Routed.growPg_new, if_neg (not_le.mpr hlt), Nat.add_zero]
    · rw [index_rightHalf hlt, size_leftHalf]
      rfl

/-- A message for a tree that is one leaf. -/
theorem handleRootLeafUpsert_spec (hK : Keeps R.ids N A T C mem noFlight header created 0 pg)
    (hT : A → T ≤ T') (hu : u.type ≠ .INVALID) :
    Runs (handler R) (handleRootLeafUpsert N O u header.rootID)
      ⟨mem, created, header, [(header.rootID, mem header.rootID)], recent, kept⟩ fun _ w' =>
        AtRestLow R N A T' (Function.update C u.key (u.effect (C u.key))) header kept w' := by
  obtain ⟨t, ht₀, hok, -⟩ := hK.inv.leaf_page u.key
  have htop : ∀ k, pg 0 k = header.rootID := hK.inv.routed.top
  have ht : mem header.rootID = some (.leaf t) := by rw [← htop u.key, ht₀]
  -- the leaf takes the message
  have hwrite : ∀ t', t.perform u = t' → t'.size ≤ N.LEAF_N → Runs (handler R)
      ((PageProg.write header.rootID (.leaf t')).bind fun _ => PageProg.unpinPage header.rootID true)
      ⟨mem, created, header, [(header.rootID, mem header.rootID)], recent, kept⟩ fun _ w' =>
        AtRestLow R N A T' (Function.update C u.key (u.effect (C u.key))) header kept w' := by
    rintro t' rfl hsize
    have hset := hK.set_entry (Nat.zero_le 1) hT ht₀ hsize
    rw [htop] at hset
    exact runs_write ⟨_, List.mem_cons_self⟩ (runs_unpin_last (by simp) (.inl rfl)
      (.of_keeps (Nat.zero_le 1) hset rfl rfl rfl id id))
  -- the leaf stays as it is
  have hkeep : t.perform u = t → Runs (handler R) (PageProg.unpinPage header.rootID false)
      ⟨mem, created, header, [(header.rootID, mem header.rootID)], recent, kept⟩ fun _ w' =>
        AtRestLow R N A T' (Function.update C u.key (u.effect (C u.key))) header kept w' := by
    intro e
    have hset := hK.set_entry (Nat.zero_le 1) hT ht₀ (by rw [e]; exact hok.size_le)
    rw [e, htop, ← ht, Function.update_eq_self] at hset
    exact runs_unpin_last (by rw [ht]; rfl) (.inr rfl) (.of_keeps (Nat.zero_le 1) hset rfl rfl rfl id id)
  have hfound : (lowerBound t.keys t.size u.key < t.size ∧
      t.keys (lowerBound t.keys t.size u.key) = u.key) = t.Found u.key := rfl
  simp only [handleRootLeafUpsert, Prog.bind_def, Prog.pure_def]
  refine runs_getHeader (runs_check (by simp) (runs_asLeaf ht (.inl ⟨_, List.mem_cons_self⟩) ?_))
  cases hty : u.type with
  | DELETE =>
    simp only [hfound]
    by_cases hf : t.Found u.key
    · rw [if_pos hf]
      have hperform : t.perform u = t.erasePair (t.index u.key) := by
        rw [BeLeafNode.perform, hty]
        exact if_pos hf
      exact hwrite _ hperform (hperform ▸ (perform_size_of_found hf).trans hok.size_le)
    · rw [if_neg hf]
      exact hkeep (perform_of_not_writes (by simp [BeLeafNode.writes, hty, hf]))
  | UPDATE =>
    simp only [hfound]
    by_cases hf : t.Found u.key
    · rw [if_pos hf]
      have hperform : t.perform u = t.setValue (t.index u.key) (t.values (t.index u.key) + u.value) := by
        rw [BeLeafNode.perform, hty]
        exact if_pos hf
      exact hwrite _ hperform hok.size_le
    · rw [if_neg hf]
      exact hkeep (perform_of_not_writes (by simp [BeLeafNode.writes, hty, hf]))
  | INSERT =>
    simp only [hfound]
    by_cases hf : t.Found u.key
    · rw [if_pos hf]
      by_cases hv : t.values (lowerBound t.keys t.size u.key) = u.value
      · rw [if_neg (not_not.mpr hv)]
        exact hkeep (perform_of_not_writes (by simp [BeLeafNode.writes, hty, hf, BeLeafNode.index, hv]))
      · rw [if_pos hv]
        have hperform : t.perform u = t.setValue (t.index u.key) u.value := by
          rw [BeLeafNode.perform, hty]
          exact if_pos hf
        exact hwrite _ hperform hok.size_le
    · rw [if_neg hf]
      refine runs_check (fun _ => decide_eq_true hok.size_le) ?_
      split
      next hfull =>
        exact handleRootLeafUpsert_split hlim hN hK hT hty hok ht hf hfull
      next hfull =>
        have hle := hok.size_le
        refine performRootInsert_spec hK (Nat.zero_le 1) hT hty (htop u.key) ht hf rfl ?_ rfl rfl id
        have := perform_size_le (n := t) (u := u)
        omega
  | INVALID => exact absurd hty hu

end Routine

end BEpsilon.BeTree
