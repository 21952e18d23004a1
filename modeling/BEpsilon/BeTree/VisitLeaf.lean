import BEpsilon.BeTree.FlushLeaf

/-!
# BEpsilon.BeTree.VisitLeaf — the loop over leaf children

One round pins a leaf, splits it at the median key when its messages may not fit, and keeps the messages
for later; at the end the parent learns the pivots, is released, and the messages are applied.
-/

namespace BEpsilon.BeTree

open Slots Keyed PageWorld

variable {K V : Type} [LinearOrder K] [BoundedOrder K] [DecidableEq V] [Add V] [Inhabited K] [Inhabited V]
variable {W : Watch K V} {R : PageRules} {N : NodeSizes} {O : Unspecified K V} {A : Prop} {T : K → ℕ}
  {C : K → Option V} {H : ℕ} {c : PageId} {hs : List ℕ} {old : List (PageId × MessageMap K V)} {header : Header}
  {kept : Prop}
  {n : BeInnerNode K V}

omit [BoundedOrder K] [DecidableEq V] [Inhabited K] [Inhabited V] in
/-- The world while the leaf children of `c` are visited. -/
structure VisitLeaves (W : Watch K V) (R : PageRules) (N : NodeSizes) (A : Prop) (T : K → ℕ) (C : K → Option V)
    (H : ℕ) (c : PageId) (n : BeInnerNode K V) (hs : List ℕ) (old : List (PageId × MessageMap K V))
    (header : Header) (kept : Prop) (rest : MessageMap K V) (t : Traversal K V)
    (w : PageWorld (BeNode K V) Header) : Prop where
  tree : ∃ F pg vn, Visiting W R.ids N A T C H c 0 n hs old t.newPivots rest
    (t.leafMessages.flatMap fun j => j.2.2) (t.leafMessages.flatMap LeafJob.pages) w.mem F w.header w.created
    pg vn ∧ ∀ j ∈ t.leafMessages, JobOk N w.mem pg j ∧ JobClear W N w.mem j
  queue : t.queue = old
  pins : PinsAre w.pins (c :: (old.map Prod.fst ++ t.leafMessages.flatMap LeafJob.pages))
  header_eq : w.header = header
  kept_eq : w.kept = kept

section Halves

variable {mem : PageId → Option (BeNode K V)} {pg : ℕ → K → PageId} {t : BeLeafNode K V} {mid : K}
  {q r : PageId} {v : List (Upsert K V)} {x y created : ℕ} {L : Leftover K V}

omit [BoundedOrder K] [DecidableEq V] in
/-- The messages of a leaf that is split at the median key. -/
theorem jobOk_halves (ht : LeafOk N t) (hcut : MedianCut t.keys t.size (keyAt v) v.length mid x y)
    (hv : v.length ≤ N.MAX_FLUSH_SIZE) (hqr : q ≠ r) (hl : mem q = some (.leaf (t.leftHalf mid)))
    (hr : mem r = some (.leaf (t.rightHalf L mid))) (hpg : ∀ u ∈ v, pg 0 u.key = q) :
    JobOk N mem (Routed.splitPg pg 0 q r mid) (q, some (mid, r), v) := by
  have hsize := ht.size_le
  rw [NodeSizes.MAX_FLUSH_SIZE] at hv
  obtain ⟨hfl, hfr⟩ := fits_halves N L ht.sorted hcut (by omega)
  have htarget : ∀ k : K, targetOf q (some (mid, r)) k = if mid < k then r else q := fun _ => rfl
  refine ⟨fun u hu => ?_, fun p hp => ?_⟩
  · rw [htarget]
    split
    next h => exact Routed.splitPg_right (hpg u hu) h
    next h =>
      rw [Routed.splitPg_left (not_lt.mp h)]
      exact hpg u hu
  · rcases List.mem_cons.mp hp with rfl | hp
    · refine ⟨_, hl, ?_⟩
      rw [List.filter_congr (q := fun u => decide (u.key ≤ mid)) fun u _ => ?_]
      · exact hfl
      · rw [htarget, decide_eq_decide]
        by_cases h : mid < u.key
        · simp [h, hqr.symm]
        · simp [h, not_lt.mp h]
    · obtain rfl : p = r := List.mem_singleton.mp hp
      refine ⟨_, hr, ?_⟩
      rw [List.filter_congr (q := fun u => decide (mid < u.key)) fun u _ => ?_]
      · exact hfr
      · rw [htarget, decide_eq_decide]
        by_cases h : mid < u.key
        · simp [h]
        · simp [h, hqr]

omit [BoundedOrder K] [DecidableEq V] [Add V] [Inhabited K] [Inhabited V] in
/-- An INSERT finds no slot past the end of its half that holds the key. -/
theorem jobClear_halves (hs : Sorted t.keys t.size) (h2 : 2 ≤ t.size) (hv : KeysSorted Upsert.key v)
    (hl : mem q = some (.leaf (t.leftHalf mid))) (hr : mem r = some (.leaf (t.rightHalf (W.memory created) mid)))
    (hvac : W.on → ∀ u ∈ v, u.type = .INSERT → t.Vacant N W.memory created u.key) :
    JobClear W N mem (q, some (mid, r), v) := by
  refine ⟨hv, fun hon u hu hi t' ht' => ?_⟩
  obtain ⟨hslots, hmemory⟩ := hvac hon u hu hi
  have htarget : targetOf q (some (mid, r)) u.key = if mid < u.key then r else q := rfl
  dsimp only at ht'
  rw [htarget] at ht'
  split at ht'
  next hlt =>
    obtain rfl : t.rightHalf (W.memory created) mid = t' := by simpa using hr.symm.trans ht'
    exact clear_rightHalf hlt fun hlast => hmemory h2 hlast created le_rfl
  next hle =>
    obtain rfl : t.leftHalf mid = t' := by simpa using hl.symm.trans ht'
    exact clear_leftHalf hs (not_lt.mp hle) hslots

end Halves

namespace Visiting

variable {ids : ℕ → PageId} {g : ℕ} {vn : BeInnerNode K V} {newPivots : List (ℕ × K × PageId)}
  {rest : MessageMap K V} {lm : List (Upsert K V)} {kids : List PageId}
  {mem : PageId → Option (BeNode K V)} {F : PageId → List (Upsert K V)} {created : ℕ} {pg : ℕ → K → PageId}
  {i : ℕ} {v : List (Upsert K V)} {L : Leftover K V}

omit [BoundedOrder K] [DecidableEq V] [Inhabited K] [Inhabited V] in
/-- The parent may learn one more pivot. -/
theorem learn_ok (hV : Visiting W ids N A T C H c g n hs old newPivots rest lm kids mem F header created pg vn)
    (hroom : vn.size + 1 ≤ N.INNER_N) {k₀ mid : K} {r : PageId}
    (hs : Sorted (insertAt vn.pivots vn.size (lowerBound vn.pivots vn.size k₀) mid) (vn.size + 1))
    (hd : Fanout.Distinct (insertAt vn.children (vn.size + 1) (lowerBound vn.pivots vn.size k₀ + 1) r)
      (vn.size + 1)) : NodeOk N (g + 1) H (.inner (vn.learn k₀ mid r)) := by
  refine ⟨hV.lt, hs, hd, hroom, ?_, ?_⟩
  · show KeysSorted Upsert.key vn.upserts.toList
    rw [hV.upserts]
    exact hV.ok.upserts
  · show vn.upserts.size ≤ _
    rw [hV.upserts]
    exact hV.ok.upserts_le

omit [BoundedOrder K] [DecidableEq V] [Inhabited K] [Inhabited V] in
/-- The child that the next messages go to, with one of them. -/
theorem next_child
    (hV : Visiting W ids N A T C H c g n hs old newPivots ((i, v) :: rest) lm kids mem F header created pg vn) :
    ∃ k, lowerBound n.pivots n.size k = i ∧ pg (g + 1) k = c ∧ pg g k = n.children i := by
  have hmem : (i, v) ∈ (i, v) :: rest := List.mem_cons_self
  obtain ⟨u₀, hu₀⟩ := List.exists_mem_of_ne_nil _ (hV.map.vectors _ hmem).1
  exact ⟨u₀.key, hV.target hmem hu₀⟩

omit [BoundedOrder K] [DecidableEq V] [Inhabited K] [Inhabited V] in
/-- The asserts on the next child and its messages hold. -/
theorem childAsserts
    (hV : Visiting W ids N A T C H c g n hs old newPivots ((i, v) :: rest) lm kids mem F header created pg vn) :
    (decide (i ≤ n.size) && isSorted v) = true := by
  have hmem : (i, v) ∈ (i, v) :: rest := List.mem_cons_self
  rw [decide_eq_true (hV.map.index_le hmem), isSorted_of_keysSorted (hV.map.vectors _ hmem).2.1]
  rfl

omit [BoundedOrder K] [DecidableEq V] [Inhabited K] [Inhabited V] in
/-- The asserts of `insertPivots` hold. -/
theorem pivotsAsserts
    (hV : Visiting W ids N A T C H c g n hs old newPivots rest lm kids mem F header created pg vn) :
    n.insertPivotsAsserts N (sortPivots newPivots) = true := by
  have hroom := hV.room
  have hsize := hV.grown.size
  exact insertPivotsAsserts_of_room hV.pivots hV.indices (by omega)

omit [BoundedOrder K] [DecidableEq V] [Inhabited K] [Inhabited V] in
/-- A page on a path other than `c` is in memory as the tree has it. -/
theorem mem_eq (hV : Visiting W ids N A T C H c g n hs old newPivots rest lm kids mem F header created pg vn)
    {k : K} (hk : pg (g + 1) k = c) :
    mem (pg g k) = Function.update mem c (some (.inner vn)) (pg g k) ∧ pg g k ≠ c := by
  have hlt := hV.lt
  have hne : pg g k ≠ c := by
    rw [← hk]
    exact hV.inv.routed.page_ne (by omega) (by omega) (by omega)
  exact ⟨(Function.update_of_ne hne _ _).symm, hne⟩

omit [BoundedOrder K] [DecidableEq V] [Inhabited K] [Inhabited V] in
/-- The leaf that the next messages go to is vacant for those that insert. -/
theorem vacant
    (hV : Visiting W ids N A T C H c 0 n hs old newPivots ((i, v) :: rest) lm kids mem F header created pg vn)
    {t : BeLeafNode K V} (ht : mem (n.children i) = some (.leaf t)) (hon : W.on) :
    ∀ u ∈ v, u.type = .INSERT → t.Vacant N W.memory created u.key := by
  intro u hu hi
  have hin : (i, v) ∈ (i, v) :: rest := List.mem_cons_self
  obtain ⟨hidx, hc, hq⟩ := hV.target hin hu
  refine hV.open_below u.key hc (fun _ => ⟨_, hin, hidx⟩) hon (hV.waits c u ?_ hi) t (by rw [hq, ht])
  refine List.mem_append_left _ (hV.flight.mem_iff.mpr ?_)
  exact List.mem_append_left _ (List.mem_append_left _ hu)

omit [BoundedOrder K] [DecidableEq V] in
/-- The leaf child is split at the median key. -/
theorem split_leaf
    (hV : Visiting W ids N A T C H c 0 n hs old newPivots ((i, v) :: rest) lm kids mem F header created pg vn)
    (hinj : ∀ i j, ids i = ids j → i = j) (hN : 3 ≤ N.LEAF_N) (hL : W.memory created = L) {t : BeLeafNode K V}
    (ht : mem (n.children i) = some (.leaf t)) {mid : K} {x y : ℕ}
    (hcut : MedianCut t.keys t.size (keyAt v) v.length mid x y) (hneed : N.LEAF_N < t.size + v.length)
    {mem' : PageId → Option (BeNode K V)}
    (hmem' : mem' = Function.update (Function.update mem (ids created) (some (.leaf (t.rightHalf L mid))))
      (n.children i) (some (.leaf (t.leftHalf mid)))) :
    ∃ pg' vn', Visiting W ids N A T C H c 0 n hs old (newPivots ++ [(i, mid, ids created)]) rest (lm ++ v)
        (kids ++ [n.children i] ++ [ids created]) mem' F header (created + 1) pg' vn' ∧
      (∀ k, pg 0 k ≠ n.children i → pg' 0 k = pg 0 k) ∧
      JobOk N mem' pg' (n.children i, some (mid, ids created), v) ∧
      JobClear W N mem' (n.children i, some (mid, ids created), v) := by
  subst hL
  set L := W.memory created with hL
  have hin : (i, v) ∈ (i, v) :: rest := List.mem_cons_self
  obtain ⟨-, hvs, hvl, -⟩ := hV.map.vectors _ hin
  obtain ⟨k₀, hi₀, hc₀, hq₀⟩ := hV.next_child
  obtain ⟨hmq, hqc⟩ := hV.mem_eq hc₀
  rw [hq₀] at hmq hqc
  have hlt := hV.lt
  have hT := hV.inv
  -- the leaf
  obtain ⟨t₀, ht₀, hok, hkeys⟩ := hT.leaf_page k₀
  rw [hq₀, ← hmq, ht] at ht₀
  obtain rfl : t = t₀ := by simpa using ht₀
  have hroom := hV.room
  rw [List.length_cons] at hroom
  have hfresh : ∀ h ≤ H, ∀ k, pg h k ≠ ids created := fun h hh k => hT.fresh_page hinj le_rfl hh k
  have hqr : n.children i ≠ ids created := hq₀ ▸ hfresh 0 (by omega) k₀
  have hcr : c ≠ ids created := hc₀ ▸ hfresh 1 (by omega) k₀
  obtain ⟨hmid, hup⟩ := hT.cut_keys (v := v) (by rw [hq₀, ← hmq, ht]) hvs
    (fun u hu => ((hV.target hin hu).2.2).trans hq₀.symm) hcut (by omega)
  have hhalves := halves_of_cut hok.sorted L mid
  have hMAX : v.length ≤ N.LEAF_N - 1 := hvl
  have hsize := hok.size_le
  obtain ⟨hfl, hfr⟩ := fits_halves N L hok.sorted hcut (by omega)
  -- the pages afterwards
  have hmc : mem' c = mem c := by
    rw [hmem', Function.update_of_ne hqc.symm, Function.update_of_ne hcr]
  have hl' : mem' (n.children i) = some (.leaf (t.leftHalf mid)) := by rw [hmem', Function.update_self]
  have hr' : mem' (ids created) = some (.leaf (t.rightHalf L mid)) := by
    rw [hmem', Function.update_of_ne hqr.symm, Function.update_self]
  have hS : NodeSplit ids N (Function.update mem c (some (.inner vn)))
      (Function.update mem' c (some (.inner (vn.learn k₀ mid (ids created))))) F F created H pg 0 k₀ mid := by
    refine hT.split_leaf (.inner vn) (.inner (vn.learn k₀ mid (ids created))) hinj (t := t) (by omega)
      (by rw [hc₀, Function.update_self]) rfl hV.grown.sorted hV.grown.distinct (by rw [hq₀, ← hmq, ht])
      hmid hup hhalves hfl.size_le hfr.size_le (by rw [hc₀, Function.update_self]) rfl
      rfl (hV.learn_ok (by omega)) ?_ ?_ fun id h₁ h₂ h₃ => ?_
    · rw [hq₀, Function.update_of_ne hqc, hl']
    · rw [Function.update_of_ne hcr.symm, hr']
    · rw [hc₀] at h₁
      rw [hq₀] at h₂
      rw [Function.update_of_ne h₁, Function.update_of_ne h₁, hmem', Function.update_of_ne h₂,
        Function.update_of_ne h₃]
  have hVt := hV.take
  have hlearn := hVt.learn hinj hc₀
    (by rw [hq₀]; exact List.mem_append_right _ (List.mem_singleton_self _))
    (by rw [hi₀]; exact hV.unseen _ hin) (fun e he => by
      obtain ⟨u, hu⟩ := List.exists_mem_of_ne_nil _ (hV.map.vectors e (List.mem_cons_of_mem _ he)).1
      rw [hi₀]
      exact (hV.other_target he hu).1) (by omega) hS hmc rfl
  rw [hi₀, hq₀] at hlearn
  refine ⟨_, _, hlearn, fun k hk => splitPg_of_ne_page hk, ?_⟩
  refine ⟨jobOk_halves hok hcut hvl hqr hl' hr' fun u hu => (hV.target hin hu).2.2, ?_⟩
  exact jobClear_halves hok.sorted (by omega) hvs hl' hr' fun hon => hV.vacant ht hon

end Visiting

section Routine

variable (hW : W.Of R O) (hlim : R.limit = none) (hN : 3 ≤ N.LEAF_N)
include hW hlim hN

omit [DecidableEq V] in
/-- A leaf child is split if its messages may not fit. -/
theorem handleChild_leaf {rest : MessageMap K V} {e : ℕ × List (Upsert K V)} {t : Traversal K V}
    {w : PageWorld (BeNode K V) Header}
    (hw : VisitLeaves W R N A T C H c n hs old header kept (e :: rest) t w) :
    Runs (handler R) (handleChild N O n t e) w fun t' w' =>
      VisitLeaves W R N A T C H c n hs old header kept rest t' w' := by
  obtain ⟨i, v⟩ := e
  obtain ⟨mem, created, header', pins, recent, kept'⟩ := w
  obtain ⟨⟨F, pg, vn, hV, hjobs⟩, hqueue, hp, he, hk⟩ := hw
  dsimp only at hV hjobs hp he hk
  have hin : (i, v) ∈ (i, v) :: rest := List.mem_cons_self
  obtain ⟨hvne, hvs, hvl, -⟩ := hV.map.vectors _ hin
  obtain ⟨k₀, hi₀, hc₀, hq₀⟩ := hV.next_child
  obtain ⟨hmq, hqc⟩ := hV.mem_eq hc₀
  have hfree := hV.child_free hin
  have hT := hV.inv
  have hlt := hV.lt
  obtain ⟨lf, hlf, hok, -⟩ := hT.leaf_page k₀
  have hknown := hT.known _ (hT.mem_page (Nat.zero_le H) k₀)
  rw [← hmq] at hlf
  rw [hq₀] at hlf hqc hknown
  have hfreshm : mem (R.ids created) = none := by
    have h := (hT.fresh_mem R.ids_inj le_rfl).1
    by_cases e : R.ids created = c
    · exact absurd (e.trans hc₀.symm).symm (hT.fresh_page R.ids_inj le_rfl (by omega) k₀)
    · rwa [Function.update_of_ne e] at h
  set q := n.children i with hq
  -- the pages of the jobs are other leaves
  have hjne : ∀ j ∈ t.leafMessages, ∀ p ∈ LeafJob.pages j, p ≠ q := by
    rintro j hj p hpp rfl
    refine hfree (List.mem_cons_of_mem _ (List.mem_append_right _ ?_))
    exact List.mem_flatMap.mpr ⟨j, hj, hpp⟩
  have hpins : PinsAre ((q, mem q) :: pins)
      (c :: (old.map Prod.fst ++ (t.leafMessages.flatMap LeafJob.pages ++ [q]))) := by
    refine (hp.cons q (mem q)).perm ?_
    refine (List.Perm.swap c q _).trans (List.Perm.cons c ?_)
    rw [← List.append_assoc]
    exact (List.perm_append_singleton _ _).symm
  simp only [handleChild, Prog.bind_def]
  refine runs_check (fun _ => hV.childAsserts) (runs_pinPage (hp.ne hfree) (by simp [hlim])
    (show (mem q).isSome = !false by rw [hlf]; rfl) hknown ?_)
  refine runs_read hlf (.inl ⟨_, List.mem_cons_self⟩) ?_
  simp only [handleLeafChild, Prog.bind_def, Prog.pure_def]
  split
  next hneed =>
    refine runs_medianKeyOf hok.sorted hvs ?_ fun mid x y hcut => ?_
    · exact Nat.le_add_left_of_le (List.length_pos_of_ne_nil hvne)
    refine runs_splitLeafNode ⟨_, List.mem_cons_self⟩ hfreshm (hpins.ne fun hr => ?_) hlim hlf ?_
      (runs_ret ?_)
    · rcases List.mem_cons.mp hr with hr | hr
      · exact hT.fresh_page R.ids_inj le_rfl (by omega) k₀ (hc₀.trans hr.symm)
      rcases List.mem_append.mp hr with hr | hr
      · obtain ⟨y', hy, hy'⟩ := List.mem_map.mp hr
        obtain ⟨g₀, -, hE⟩ := exists_entry hV.entries hy
        obtain ⟨k, hkk⟩ := hE.page
        exact hT.fresh_page R.ids_inj le_rfl hE.lt.le k (hkk.trans hy')
      · rcases List.mem_append.mp hr with hr | hr
        · obtain ⟨k, hkk, -⟩ := hV.kid _ hr
          exact hT.fresh_page R.ids_inj le_rfl (by omega) k hkk
        · rw [List.mem_singleton.mp hr, hlf] at hfreshm
          simp at hfreshm
    · have hlt := lt_of_needToSplit hneed
      have hMAX : v.length ≤ N.LEAF_N - 1 := hvl
      omega
    · obtain ⟨pg', vn', hV', hpg, hjob⟩ := hV.split_leaf R.ids_inj hN (hW.memory created) hlf hcut
        (lt_of_needToSplit hneed) rfl
      refine ⟨⟨F, pg', vn', ?_, fun j hj => ?_⟩, hqueue, ?_, he, hk⟩
      · simpa only [List.flatMap_append, List.flatMap_cons, List.flatMap_nil, List.append_nil,
          LeafJob.pages, Option.toList_some, List.map_cons, List.map_nil, List.append_assoc,
          List.singleton_append] using hV'
      · rcases List.mem_append.mp hj with hj | hj
        · have hsame : ∀ p ∈ LeafJob.pages j, Function.update (Function.update mem (R.ids created)
              (some (.leaf (lf.rightHalf (O.memory (R.ids created)) mid)))) q (some (.leaf (lf.leftHalf mid))) p =
              mem p := by
            intro p hpp
            obtain ⟨t', ht', -⟩ := (hjobs j hj).1.fits p hpp
            rw [Function.update_of_ne (hjne j hj p hpp), Function.update_of_ne]
            rintro rfl
            rw [hfreshm] at ht'
            simp at ht'
          exact ⟨(hjobs j hj).1.congr hsame fun u _ hu => hpg _ (hjne j hj _ hu), (hjobs j hj).2.congr hsame⟩
        · rw [List.mem_singleton.mp hj]
          exact hjob
      · refine (hpins.cons (R.ids created) none).perm ?_
        simp only [List.flatMap_append, List.flatMap_cons, List.flatMap_nil, List.append_nil,
          LeafJob.pages, Option.toList_some, List.map_cons, List.map_nil]
        refine (List.Perm.swap c _ _).trans (List.Perm.cons c ?_)
        rw [← List.append_assoc, ← List.append_assoc]
        refine (List.perm_append_singleton _ _).symm.trans ?_
        simp only [List.append_assoc, List.singleton_append]
        exact List.Perm.refl _
  next hneed =>
    refine runs_ret ⟨⟨F, pg, vn, ?_, fun j hj => ?_⟩, hqueue, ?_, he, hk⟩
    · simpa only [List.flatMap_append, List.flatMap_cons, List.flatMap_nil, List.append_nil,
        LeafJob.pages, Option.toList_none, List.map_nil] using hV.take
    · rcases List.mem_append.mp hj with hj | hj
      · exact hjobs j hj
      · rw [List.mem_singleton.mp hj]
        refine ⟨⟨fun u hu => (hV.target hin hu).2.2, fun p hpp => ⟨lf, ?_, ?_⟩⟩, hvs, fun hon u hu hi t' ht' => ?_⟩
        · rw [List.mem_singleton.mp hpp]
          exact hlf
        · rw [List.mem_singleton.mp hpp, List.filter_eq_self.mpr fun u _ => by simp [targetOf]]
          exact fits_of_needToSplit hok.sorted hok.size_le hvs (by simpa using hneed)
        · obtain rfl : lf = t' := by simpa using hlf.symm.trans ht'
          exact clear_of_freeOf (hV.vacant hlf hon u hu hi).slots
    · simpa only [List.flatMap_append, List.flatMap_cons, List.flatMap_nil, List.append_nil,
        LeafJob.pages, Option.toList_none, List.map_nil] using hpins

omit hW hlim hN [DecidableEq V] [Inhabited K] [Inhabited V] in
/-- The node has taken the pivots and has been released: the messages can be applied. -/
theorem VisitLeaves.settling {t : Traversal K V} {w : PageWorld (BeNode K V) Header}
    {F : PageId → List (Upsert K V)} {pg : ℕ → K → PageId} {vn : BeInnerNode K V}
    (hV : Visiting W R.ids N A T C H c 0 n hs old t.newPivots [] (t.leafMessages.flatMap fun j => j.2.2)
      (t.leafMessages.flatMap LeafJob.pages) w.mem F w.header w.created pg vn)
    (hjobs : ∀ j ∈ t.leafMessages, JobOk N w.mem pg j ∧ JobClear W N w.mem j) :
    Settling W R.ids N A T C H c hs old t.leafMessages
      (Function.update w.mem c (some (.inner (n.insertPivots (sortPivots t.newPivots))))) F w.header
      w.created pg := by
  have hlt := hV.lt
  obtain ⟨k₀, hk₀⟩ := hV.page
  have hold : ∀ e ∈ old, e.1 ≠ c := fun e he => (hV.old_ne he hk₀).1
  have hsame : ∀ j ∈ t.leafMessages, ∀ p ∈ LeafJob.pages j,
      Function.update w.mem c (some (.inner (n.insertPivots (sortPivots t.newPivots)))) p = w.mem p := by
    intro j hj p hp
    obtain ⟨k, hk, -⟩ := hV.kid p (List.mem_flatMap.mpr ⟨j, hj, hp⟩)
    exact Function.update_of_ne (hk ▸ hV.leaf_ne k) _ _
  refine ⟨hV.finish, by omega, fun j hj u hu => hV.range (List.mem_flatMap.mpr ⟨j, hj, hu⟩), hV.flight,
    fun id hid => ?_, ?_, hV.apart, fun e he => ⟨hold e he, hV.away e he⟩,
    fun j hj => (hjobs j hj).1.congr (hsame j hj) fun _ _ _ => rfl, hV.nodup, hV.finish_waits,
    fun j hj => (hjobs j hj).2.congr (hsame j hj), fun e he k h hh hk =>
      (hV.open_old e he k h hh hk).congr (Function.update_of_ne (hV.leaf_ne k) _ _) le_rfl⟩
  · rcases hV.flying id hid with h | h | h
    · exact .inl h
    · -- nothing waits at a leaf
      obtain ⟨k, hk, -⟩ := hV.kid id h
      obtain ⟨m, hm⟩ := hV.inv.flying id hid
      obtain ⟨lf, hlf, -⟩ := hV.inv.leaf_page k
      rw [hk, hm] at hlf
      simp at hlf
    · exact .inr h
  · exact entries_imp hV.entries fun g e he hE =>
      hE.congr (Function.update_of_ne (hold e he) _ _) rfl hE.page

omit [DecidableEq V] in
/-- A page of the queue whose children are leaves. -/
theorem handleTraversalNode_leaf {map : MessageMap K V} {w : PageWorld (BeNode K V) Header}
    (hw : Flushing W R N A T C header kept H (0 :: hs) ((c, map) :: old) w) :
    Runs (handler R) (handleTraversalNode N O c map old) w fun queue' w' =>
      queue' = old ∧ Flushing W R N A T C header kept H hs old w' := by
  obtain ⟨mem, created, header', pins, recent, kept'⟩ := w
  obtain ⟨⟨F, pg, hK, hl, hap, hF, hwaits, hopen⟩, hp, he, hk⟩ := hw
  dsimp only at hK hl hwaits hopen hp he hk
  obtain ⟨n, hV⟩ := Visiting.start hK hl hap hF hwaits hopen (O.traverse_perm map)
  simp only [handleTraversalNode, Prog.bind_def, Prog.pure_def]
  refine runs_asInner hV.cur (.inl (hp.pinned List.mem_cons_self)) (runs_bind ?_)
  refine Runs.mono (runs_forFold (fun rest t w => VisitLeaves W R N A T C H c n hs old header kept rest t w)
    (fun e rest t w h => handleChild_leaf hW hlim hN h)
    ⟨⟨F, pg, n, by simpa using hV, by simp⟩, rfl, by simpa using hp, he, hk⟩) ?_
  rintro t ⟨mem₁, created₁, header₁, pins₁, recent₁, kept₁⟩ ⟨⟨F₁, pg₁, vn, hV₁, hjobs⟩, hq, hp₁, he₁, hk₁⟩
  refine runs_check (fun _ => hV₁.pivotsAsserts) (runs_write (hp₁.pinned List.mem_cons_self) ?_)
  refine runs_release hp₁ (by simp) fun pins₂ hp₂ => runs_bind ?_
  have hT : SettlingAt W R N A T C H c hs old header kept t.leafMessages
      (t.leafMessages.flatMap LeafJob.pages)
      ⟨Function.update mem₁ c (some (.inner (n.insertPivots (sortPivots t.newPivots)))), created₁, header₁,
        pins₂, c :: recent₁, kept₁⟩ :=
    ⟨⟨F₁, pg₁, VisitLeaves.settling hV₁ hjobs⟩, hp₂.perm List.perm_append_comm, he₁, hk₁⟩
  exact (settle_spec hW.on hT).mono fun _ w' h => runs_ret ⟨hq, h⟩

end Routine

end BEpsilon.BeTree
