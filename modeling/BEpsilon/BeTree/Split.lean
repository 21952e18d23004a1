import BEpsilon.BeTree.Moves

/-!
# BEpsilon.BeTree.Split — splits below a parent

A leaf or an inner node gives its keys above `mid` to a fresh page, and its parent learns both.
`NodeSplit` says what the pages are afterwards; the tree keeps its invariant, its messages and its
entries.
-/

namespace BEpsilon.BeTree

open Slots Keyed

variable {K V : Type} [LinearOrder K]

/-- The page of height `h` on the path of `k₀` has given what belongs to its keys above `mid` to a fresh
page. -/
structure NodeSplit (ids : ℕ → PageId) (N : NodeSizes) (mem mem' : PageId → Option (BeNode K V))
    (F F' : PageId → List (Upsert K V)) (created H : ℕ) (pg : ℕ → K → PageId) (h : ℕ) (k₀ mid : K) :
    Prop where
  step : ∃ routeP P C,
    Routed.SplitStep (views mem) (views mem') H pg h k₀ mid (ids created) routeP P C
  parent : ∃ d, mem' (pg (h + 1) k₀) = some d ∧ NodeOk N (h + 1) H d
  left : ∃ d, mem' (pg h k₀) = some d ∧ NodeOk N h H d
  right : ∃ d, mem' (ids created) = some d ∧ NodeOk N h H d
  parent_waiting : waitingAt mem' F' (pg (h + 1) k₀) = waitingAt mem F (pg (h + 1) k₀)
  perm : (waitingAt mem' F' (pg h k₀) ++ waitingAt mem' F' (ids created)).Perm
    (waitingAt mem F (pg h k₀))
  low : ∀ u ∈ waitingAt mem' F' (pg h k₀), u.key ≤ mid
  high : ∀ u ∈ waitingAt mem' F' (ids created), mid < u.key
  entry : h = 0 → ∀ k, pg 0 k = pg 0 k₀ →
    leafEntry mem' (Routed.splitPg pg h (pg h k₀) (ids created) mid) k = leafEntry mem pg k
  others : ∀ id, id ≠ pg (h + 1) k₀ → id ≠ pg h k₀ → id ≠ ids created →
    mem' id = mem id ∧ F' id = F id
  flying : ∀ id, F' id ≠ [] → ∃ n, mem' id = some (.inner n)

namespace NodeSplit

variable {ids : ℕ → PageId} {N : NodeSizes} {mem mem' : PageId → Option (BeNode K V)}
  {F F' : PageId → List (Upsert K V)} {header : Header} {created H : ℕ} {pg : ℕ → K → PageId} {h : ℕ}
  {k₀ mid : K}

theorem waitingAt_other (hS : NodeSplit ids N mem mem' F F' created H pg h k₀ mid) {id : PageId}
    (hq : id ≠ pg h k₀) (hr : id ≠ ids created) : waitingAt mem' F' id = waitingAt mem F id := by
  by_cases hp : id = pg (h + 1) k₀
  · rw [hp, hS.parent_waiting]
  · obtain ⟨h₁, h₂⟩ := hS.others id hp hq hr
    rw [waitingAt, waitingAt, h₁, h₂]

variable (ids created pg) in
/-- The pages on the paths afterwards. -/
theorem page_cases (h : ℕ) (k₀ mid : K) (g : ℕ) (k : K) :
    (Routed.splitPg pg h (pg h k₀) (ids created) mid g k = ids created ∧
        g = h ∧ pg h k = pg h k₀ ∧ mid < k) ∨
      (Routed.splitPg pg h (pg h k₀) (ids created) mid g k = pg g k ∧
        ¬ (g = h ∧ pg h k = pg h k₀ ∧ mid < k)) := by
  by_cases hc : g = h ∧ pg h k = pg h k₀ ∧ mid < k
  · exact .inl ⟨by rw [hc.1]; exact Routed.splitPg_right hc.2.1 hc.2.2, hc⟩
  · exact .inr ⟨by simp [Routed.splitPg, hc], hc⟩

/-- Both pages are on paths. -/
theorem pages (hS : NodeSplit ids N mem mem' F F' created H pg h k₀ mid) :
    (∃ k, Routed.splitPg pg h (pg h k₀) (ids created) mid h k = pg h k₀) ∧
      ∃ k, Routed.splitPg pg h (pg h k₀) (ids created) mid h k = ids created := by
  obtain ⟨routeP, P, C, hstep⟩ := hS.step
  obtain ⟨x, hx, hlt⟩ := hstep.above
  exact ⟨⟨mid, by rw [Routed.splitPg_left le_rfl, hstep.mid_mem]⟩, x, Routed.splitPg_right hx hlt⟩

/-- A split keeps the invariant. -/
theorem treeInv (hT : TreeInv ids N mem F header created H pg)
    (hinj : ∀ i j, ids i = ids j → i = j)
    (hS : NodeSplit ids N mem mem' F F' created H pg h k₀ mid) :
    TreeInv ids N mem' F' header (created + 1) H
      (Routed.splitPg pg h (pg h k₀) (ids created) mid) := by
  obtain ⟨routeP, P, C, hstep⟩ := hS.step
  have hh := hstep.lt
  refine ⟨hT.routed.split hstep, fun g hg k d hd => ?_, hT.flag, fun g hg k => ?_, hS.flying,
    fun id hid => ?_, fun i hi => ?_⟩
  · rcases page_cases ids created pg h k₀ mid g k with
      ⟨e, rfl, -⟩ | ⟨e, -⟩
    · obtain ⟨d', hd', hok⟩ := hS.right
      rw [e] at hd
      rw [hd'] at hd
      exact Option.some.inj hd ▸ hok
    · rw [e] at hd
      by_cases hp : pg g k = pg (h + 1) k₀
      · obtain rfl := hT.routed.level _ _ _ _ hg hh hp
        obtain ⟨d', hd', hok⟩ := hS.parent
        rw [hp, hd'] at hd
        exact Option.some.inj hd ▸ hok
      by_cases hq : pg g k = pg h k₀
      · obtain rfl := hT.routed.level _ _ _ _ hg hh.le hq
        obtain ⟨d', hd', hok⟩ := hS.left
        rw [hq, hd'] at hd
        exact Option.some.inj hd ▸ hok
      rw [(hS.others _ hp hq (hT.fresh_page hinj le_rfl hg k)).1] at hd
      exact hT.nodes g hg k d hd
  · rcases page_cases ids created pg h k₀ mid g k with
      ⟨e, rfl, hk, hlt⟩ | ⟨e, hne⟩
    · -- what waits at the right page
      rw [e]
      refine ((hT.waiting g hg k₀).subperm ?_).congr fun u hu hpg => ?_
      · exact (List.sublist_append_right _ _).subperm.trans hS.perm.subperm
      · exact Routed.splitPg_right hpg (hS.high u hu)
    · rw [e]
      by_cases hq : pg g k = pg h k₀
      · obtain rfl := hT.routed.level _ _ _ _ hg hh.le hq
        rw [hq]
        refine ((hT.waiting g hg k₀).subperm ?_).congr fun u hu hpg => ?_
        · exact (List.sublist_append_left _ _).subperm.trans hS.perm.subperm
        · rw [Routed.splitPg_left (hS.low u hu)]
          exact hpg
      · rw [hS.waitingAt_other hq (hT.fresh_page hinj le_rfl hg k)]
        refine (hT.waiting g hg k).congr fun u _ hpg => ?_
        rcases page_cases ids created pg h k₀ mid g u.key with
          ⟨-, rfl, hk', -⟩ | ⟨e', -⟩
        · exact absurd (hpg.symm.trans hk') hq
        · rw [e']
          exact hpg
  · by_cases hr : id = ids created
    · exact ⟨created, by omega, hr.symm⟩
    have hold : mem id ≠ none := by
      by_cases hp : id = pg (h + 1) k₀
      · exact hp ▸ hT.mem_page hh k₀
      by_cases hq : id = pg h k₀
      · exact hq ▸ hT.mem_page hh.le k₀
      rwa [← (hS.others id hp hq hr).1]
    obtain ⟨i, hi, e⟩ := hT.known id hold
    exact ⟨i, by omega, e⟩
  · rcases Nat.lt_or_ge i created with hlt | hge
    · obtain ⟨g, hg, k, e⟩ := hT.all i hlt
      rcases page_cases ids created pg h k₀ mid g k with
        ⟨-, rfl, hk, -⟩ | ⟨e', -⟩
      · exact ⟨g, hg, mid, by rw [Routed.splitPg_left le_rfl, hstep.mid_mem, ← hk, e]⟩
      · exact ⟨g, hg, k, by rw [e', e]⟩
    · obtain rfl : i = created := by omega
      obtain ⟨x, hx, hlt⟩ := hstep.above
      exact ⟨h, hh.le, x, Routed.splitPg_right hx hlt⟩

/-- A split moves no message to another key or level. -/
theorem levels_eq (hT : TreeInv ids N mem F header created H pg)
    (hinj : ∀ i j, ids i = ids j → i = j)
    (hS : NodeSplit ids N mem mem' F F' created H pg h k₀ mid) :
    levels mem' F' (Routed.splitPg pg h (pg h k₀) (ids created) mid) H = levels mem F pg H := by
  obtain ⟨routeP, P, C, hstep⟩ := hS.step
  have hh := hstep.lt
  funext g k
  by_cases hg : g ≤ H
  · rw [levels_apply hg, levels_apply hg]
    have hparts : pg h k = pg h k₀ → seek Upsert.key (waitingAt mem F (pg h k)) k =
        (seek Upsert.key (waitingAt mem' F' (pg h k₀)) k).or
          (seek Upsert.key (waitingAt mem' F' (ids created)) k) := fun hk => by
      rw [hk]
      exact (hT.waiting h hh.le k₀).distinct.seek_parts hS.perm.symm k
    rcases page_cases ids created pg h k₀ mid g k with
      ⟨e, rfl, hk, hlt⟩ | ⟨e, hne⟩
    · have hnone : seek Upsert.key (waitingAt mem' F' (pg g k₀)) k = none :=
        seek_eq_none.mpr fun u hu e => absurd (hS.low u hu) (not_le.mpr (e ▸ hlt))
      rw [e, hparts hk, hnone, Option.none_or]
    · rw [e]
      by_cases hq : pg g k = pg h k₀
      · obtain rfl := hT.routed.level _ _ _ _ hg hh.le hq
        have hle : k ≤ mid := not_lt.mp fun hlt => hne ⟨rfl, hq, hlt⟩
        have hnone : seek Upsert.key (waitingAt mem' F' (ids created)) k = none :=
          seek_eq_none.mpr fun u hu e => absurd (hS.high u hu) (not_lt.mpr (e ▸ hle))
        rw [hparts hq, hnone, Option.or_none, hq]
      · rw [hS.waitingAt_other hq (hT.fresh_page hinj le_rfl hg k)]
  · rw [levels, levels, if_neg hg, if_neg hg]

/-- A split changes no entry. -/
theorem leafEntry_eq (hT : TreeInv ids N mem F header created H pg)
    (hinj : ∀ i j, ids i = ids j → i = j)
    (hS : NodeSplit ids N mem mem' F F' created H pg h k₀ mid) :
    leafEntry mem' (Routed.splitPg pg h (pg h k₀) (ids created) mid) = leafEntry mem pg := by
  obtain ⟨routeP, P, C, hstep⟩ := hS.step
  have hh := hstep.lt
  funext k
  by_cases hk : h = 0 ∧ pg 0 k = pg 0 k₀
  · exact hS.entry hk.1 k hk.2
  · have hq : pg 0 k ≠ pg h k₀ := fun e => by
      obtain rfl := hT.routed.level _ _ _ _ (Nat.zero_le _) hh.le e
      exact hk ⟨rfl, e⟩
    have hp : pg 0 k ≠ pg (h + 1) k₀ := hT.routed.page_ne (Nat.zero_le _) hh (by omega)
    have e : Routed.splitPg pg h (pg h k₀) (ids created) mid 0 k = pg 0 k := by
      rcases page_cases ids created pg h k₀ mid 0 k with
        ⟨-, rfl, hk', -⟩ | ⟨e, -⟩
      · exact absurd hk' hq
      · exact e
    rw [leafEntry, leafEntry, e, (hS.others _ hp hq (hT.fresh_page hinj le_rfl (Nat.zero_le _) k)).1]

end NodeSplit

namespace TreeInv

section Split

variable {ids : ℕ → PageId} {N : NodeSizes} {mem mem' : PageId → Option (BeNode K V)}
  {F F' : PageId → List (Upsert K V)} {header : Header} {created H : ℕ} {pg : ℕ → K → PageId}
  {k₀ mid : K} {piv : Slots K} {ch : Slots PageId} {n : ℕ} {dp dp' : BeNode K V}

/-- The arrays of the parent after it has learnt the pivot and the right page. -/
def parentView (piv : Slots K) (ch : Slots PageId) (n i : ℕ) (mid : K) (r : PageId) : View K PageId :=
  Fanout.view (insertAt piv n i mid) (insertAt ch (n + 1) (i + 1) r) (n + 1)

variable (dp dp') in
/-- A leaf gives its pairs above `mid` to a fresh page. -/
theorem split_leaf (hT : TreeInv ids N mem F header created H pg)
    (hinj : ∀ i j, ids i = ids j → i = j) (hH : 0 < H) (hdp : mem (pg 1 k₀) = some dp)
    (hdv : dp.view = Fanout.view piv ch n) (hs : Sorted piv n) (hd : Fanout.Distinct ch n)
    {t tl tr : BeLeafNode K V} (ht : mem (pg 0 k₀) = some (.leaf t)) (hmid : pg 0 mid = pg 0 k₀)
    (hup : ∃ x, pg 0 x = pg 0 k₀ ∧ mid < x) (hcut : Halves t tl tr mid) (hl : tl.size ≤ N.LEAF_N)
    (hr : tr.size ≤ N.LEAF_N) (hp' : mem' (pg 1 k₀) = some dp')
    (hpv : dp'.view = parentView piv ch n (lowerBound piv n k₀) mid (ids created))
    (hpm : dp'.messages = dp.messages)
    (hpok : Sorted (insertAt piv n (lowerBound piv n k₀) mid) (n + 1) →
      Fanout.Distinct (insertAt ch (n + 1) (lowerBound piv n k₀ + 1) (ids created)) (n + 1) →
      NodeOk N 1 H dp')
    (hq' : mem' (pg 0 k₀) = some (.leaf tl)) (hr' : mem' (ids created) = some (.leaf tr))
    (hv : ∀ id, id ≠ pg 1 k₀ → id ≠ pg 0 k₀ → id ≠ ids created → mem' id = mem id) :
    NodeSplit ids N mem mem' F F created H pg 0 k₀ mid := by
  have hfresh : ∀ h' ≤ H, ∀ k, pg h' k ≠ ids created := fun h' hh k =>
    hT.fresh_page hinj le_rfl hh k
  have hview : views mem (pg 1 k₀) = some (Fanout.view piv ch n) := by rw [views, hdp, Option.map_some, hdv]
  have hpq : pg 1 k₀ ≠ pg 0 k₀ := hT.routed.page_ne hH (Nat.zero_le _) (by omega)
  obtain ⟨hsort, hdist, hroute, hpiv, hch⟩ := Fanout.parent_step hT.routed hH hview hs hd rfl hmid hup
    (hfresh 0 (Nat.zero_le _))
  have hkeys : ∀ x ∈ t.keySet, pg 0 x = pg 0 k₀ := by
    obtain ⟨t₀, ht₀, -, hk⟩ := hT.leaf_page k₀
    obtain rfl := by simpa using ht₀.symm.trans ht
    exact hk
  -- nothing waits at the two leaves
  have hFq : F (pg 0 k₀) = [] := by
    by_contra hne
    obtain ⟨m, hm⟩ := hT.flying _ hne
    simp [ht] at hm
  have hFr : F (ids created) = [] := (hT.fresh_mem hinj le_rfl).2
  have hwq : waitingAt mem' F (pg 0 k₀) = [] := by
    rw [waitingAt, hFq, hq']
    rfl
  have hwr : waitingAt mem' F (ids created) = [] := by
    rw [waitingAt, hFr, hr']
    rfl
  refine ⟨⟨_, _, _, ⟨hH, hfresh, hmid, hup, ?_, hroute, hpiv, hch, fun _ =>
    ⟨_, _, views_leaf hq', views_leaf hr', fun x hx => ?_, fun x hx => ?_⟩, fun g hg => by omega,
    fun g hg => by omega, fun id h₁ h₂ h₃ => ?_⟩⟩, ⟨dp', hp', hpok hsort hdist⟩,
    ⟨_, hq', rfl, hcut.left_sorted, hl⟩, ⟨_, hr', rfl, hcut.right_sorted, hr⟩, ?_, ?_, ?_, ?_,
    fun _ k hk => ?_, fun id h₁ h₂ h₃ => ⟨hv id h₁ h₂ h₃, rfl⟩, fun id hid => ?_⟩
  · show views mem' (pg 1 k₀) = _
    rw [views, hp', Option.map_some, hpv]
    rfl
  · exact ⟨hkeys x (hcut.left_keys x hx).1, (hcut.left_keys x hx).2⟩
  · exact ⟨hkeys x (hcut.right_keys x hx).1, (hcut.right_keys x hx).2⟩
  · rw [views, hv id h₁ h₂ h₃, views]
  · rw [waitingAt, waitingAt, hp', hdp, Option.elim_some, Option.elim_some, hpm]
  · rw [hwq, hwr, hT.waitingAt_nil (by simp [ht])]
    rfl
  · simp [hwq]
  · simp [hwr]
  · have hold : leafEntry mem pg k = t.get k := leafEntry_of_leaf (by rw [hk, ht])
    rw [hold]
    rcases le_or_gt k mid with hkm | hkm
    · rw [← hcut.left_get k hkm]
      exact leafEntry_of_leaf (by rw [Routed.splitPg_left hkm, hk, hq'])
    · rw [← hcut.right_get k hkm]
      exact leafEntry_of_leaf (by rw [Routed.splitPg_right hk hkm, hr'])
  · obtain ⟨m, hm⟩ := hT.flying id hid
    by_cases h₁ : id = pg 1 k₀
    · -- a page with messages in flight stays an inner node
      subst h₁
      have hlt : 1 < H := (hT.nodes 1 hH k₀ _ hm).1
      obtain ⟨m', rfl, -⟩ := inner_of_ok (hpok hsort hdist) Nat.one_pos hlt
      exact ⟨m', hp'⟩
    · refine ⟨m, ?_⟩
      rw [hv id h₁ (fun e => hid (e ▸ hFq)) fun e => hid (e ▸ hFr), hm]

variable {L : Leftover K V}

/-- The median key of a leaf and messages for it is a key of the leaf's range, and not the last one. -/
theorem cut_keys [Inhabited K] [Inhabited V] (hT : TreeInv ids N mem F header created H pg) {t : BeLeafNode K V}
    (ht : mem (pg 0 k₀) = some (.leaf t)) {v : List (Upsert K V)} (hv : KeysSorted Upsert.key v)
    (hrange : ∀ u ∈ v, pg 0 u.key = pg 0 k₀) {x y : ℕ}
    (hcut : MedianCut t.keys t.size (keyAt v) v.length mid x y) (h4 : 4 ≤ t.size + v.length) :
    pg 0 mid = pg 0 k₀ ∧ ∃ z, pg 0 z = pg 0 k₀ ∧ mid < z := by
  obtain ⟨t', ht', hok, hkeys⟩ := hT.leaf_page k₀
  obtain rfl : t' = t := by simpa using ht'.symm.trans ht
  have hitem : ∀ z, ((∃ j < t'.size, t'.keys j = z) ∨ ∃ j < v.length, keyAt v j = z) →
      pg 0 z = pg 0 k₀ := by
    rintro z (⟨j, hj, rfl⟩ | ⟨j, hj, rfl⟩)
    · exact hkeys _ ⟨j, hj, rfl⟩
    · obtain ⟨u, hu, e⟩ := keyAt_mem hj
      rw [← e]
      exact hrange u hu
  refine ⟨hitem mid hcut.mem_items, ?_⟩
  rcases hcut.exists_above hok.sorted (sorted_keyAt hv) h4 with ⟨j, hj, hlt⟩ | ⟨j, hj, hlt⟩
  · exact ⟨_, hitem _ (.inl ⟨j, hj, rfl⟩), hlt⟩
  · exact ⟨_, hitem _ (.inr ⟨j, hj, rfl⟩), hlt⟩

/-- The halves of an inner node are inner nodes. -/
theorem halves_ok {m : BeInnerNode K V} (hm : InnerNodeOk N m)
    (h2 : 2 ≤ m.size) : InnerNodeOk N m.leftHalf ∧ InnerNodeOk N (m.rightHalf L) := by
  have hsize := hm.size_le
  have hle := hm.upserts_le
  obtain ⟨htl, -, -⟩ := toList_halves hm.upserts
  have hcut : m.bufferCut ≤ m.upserts.size := upperBound_le _ _ _
  have hsub := hm.upserts
  rw [htl] at hsub
  obtain ⟨hl, hr, -⟩ := keysSorted_append.mp hsub
  have hls : m.leftHalf.size = (m.size - 1) / 2 := rfl
  have hrs : (m.rightHalf L).size = m.size - ((m.size - 1) / 2 + 1) := rfl
  have hru : (m.rightHalf L).upserts.size = m.upserts.size - m.bufferCut := rfl
  exact ⟨⟨hm.sorted.mono (by omega), Fanout.distinct_take hm.distinct (by omega), by omega, hl,
      hcut.trans hle⟩,
    ⟨Fanout.sorted_drop hm.sorted, Fanout.distinct_drop hm.distinct (by omega), by omega, hr, by omega⟩⟩

variable (L dp dp') in
/-- An inner node gives its pivots, children and messages above its middle key to a fresh page. -/
theorem split_inner (hT : TreeInv ids N mem F header created H pg)
    (hinj : ∀ i j, ids i = ids j → i = j) {g : ℕ} (hg : g + 1 < H) (hdp : mem (pg (g + 2) k₀) = some dp)
    (hdv : dp.view = Fanout.view piv ch n) (hs : Sorted piv n) (hd : Fanout.Distinct ch n)
    {m : BeInnerNode K V} (hm : mem (pg (g + 1) k₀) = some (.inner m)) (h2 : 2 ≤ m.size)
    (hp' : mem' (pg (g + 2) k₀) = some dp')
    (hpv : dp'.view = parentView piv ch n (lowerBound piv n k₀) m.middleKey (ids created))
    (hpm : dp'.messages = dp.messages)
    (hpok : Sorted (insertAt piv n (lowerBound piv n k₀) m.middleKey) (n + 1) →
      Fanout.Distinct (insertAt ch (n + 1) (lowerBound piv n k₀ + 1) (ids created)) (n + 1) →
      NodeOk N (g + 2) H dp')
    (hq' : mem' (pg (g + 1) k₀) = some (.inner m.leftHalf))
    (hr' : mem' (ids created) = some (.inner (m.rightHalf L)))
    (hv : ∀ id, id ≠ pg (g + 2) k₀ → id ≠ pg (g + 1) k₀ → id ≠ ids created → mem' id = mem id)
    (hF : ∀ id, id ≠ pg (g + 1) k₀ → id ≠ ids created → F' id = F id)
    (hFp : (F' (pg (g + 1) k₀) ++ F' (ids created)).Perm (F (pg (g + 1) k₀)))
    (hFl : ∀ u ∈ F' (pg (g + 1) k₀), u.key ≤ m.middleKey)
    (hFr : ∀ u ∈ F' (ids created), m.middleKey < u.key) :
    NodeSplit ids N mem mem' F F' created H pg (g + 1) k₀ m.middleKey := by
  have hfresh : ∀ h' ≤ H, ∀ k, pg h' k ≠ ids created := fun h' hh k =>
    hT.fresh_page hinj le_rfl hh k
  have hok : InnerNodeOk N m := (hT.nodes (g + 1) hg.le k₀ _ hm).2
  obtain ⟨hlok, hrok⟩ := halves_ok hok h2
  obtain ⟨htl, hlow, hhigh⟩ := toList_halves hok.upserts
  have hview : views mem (pg (g + 2) k₀) = some (Fanout.view piv ch n) := by
    rw [views, hdp, Option.map_some, hdv]
  have hpq : pg (g + 2) k₀ ≠ pg (g + 1) k₀ := hT.routed.page_ne hg hg.le (by omega)
  obtain ⟨-, hpivm, -⟩ := Fanout.inner_facts hT.routed (by omega) (views_inner hm)
  have hmid : pg (g + 1) m.middleKey = pg (g + 1) k₀ := hpivm _ ⟨_, by omega, rfl⟩
  have hup : ∃ x, pg (g + 1) x = pg (g + 1) k₀ ∧ m.middleKey < x :=
    ⟨m.pivots ((m.size - 1) / 2 + 1), hpivm _ ⟨_, by omega, rfl⟩,
      hok.sorted _ _ (by omega) (by omega)⟩
  obtain ⟨hsort, hdist, hroute, hpiv, hch⟩ := Fanout.parent_step hT.routed hg hview hs hd rfl hmid hup
    (hfresh _ hg.le)
  obtain ⟨hfl, hfr, hPl, hPr, hCl, hCr, hside⟩ := Fanout.halves_step hT.routed (by omega)
    (views_inner hm) hok.sorted hok.distinct (s := (m.size - 1) / 2) (by omega)
  have hwq : waitingAt mem' F' (pg (g + 1) k₀) = F' (pg (g + 1) k₀) ++ m.leftHalf.upserts.toList :=
    waitingAt_inner hq'
  have hwr : waitingAt mem' F' (ids created) = F' (ids created) ++ (m.rightHalf L).upserts.toList :=
    waitingAt_inner hr'
  refine ⟨⟨_, _, _, ⟨hg, hfresh, hmid, hup, ?_, hroute, hpiv, hch, fun h0 => by omega, fun g' hg' => ?_,
    fun g' hg' => ?_, fun id h₁ h₂ h₃ => ?_⟩⟩, ⟨dp', hp', hpok hsort hdist⟩,
    ⟨_, hq', hg, hlok⟩, ⟨_, hr', hg, hrok⟩, ?_, ?_, fun u hu => ?_, fun u hu => ?_, fun h0 => by omega,
    fun id h₁ h₂ h₃ => ⟨hv id h₁ h₂ h₃, hF id h₂ h₃⟩, fun id hid => ?_⟩
  · show views mem' (pg (g + 2) k₀) = _
    rw [views, hp', Option.map_some, hpv]
    rfl
  · obtain rfl : g' = g := by omega
    exact ⟨_, _, _, _, _, _, views_inner hq', views_inner hr', hfl, hfr, hPl, hPr, hCl, hCr⟩
  · obtain rfl : g' = g := by omega
    exact hside
  · rw [views, hv id h₁ h₂ h₃, views]
  · rw [waitingAt, waitingAt, hp', hdp, Option.elim_some, Option.elim_some, hpm,
      hF _ hpq (hfresh _ hg k₀)]
  · -- the messages of the halves are those of the page
    rw [hwq, hwr, waitingAt_inner hm, htl]
    refine List.Perm.trans ?_ (hFp.append_right _)
    rw [List.append_assoc, List.append_assoc]
    refine List.Perm.append_left _ ?_
    rw [← List.append_assoc, ← List.append_assoc]
    exact List.perm_append_comm.append_right _
  · rw [hwq] at hu
    rcases List.mem_append.mp hu with hu | hu
    · exact hFl u hu
    · exact hlow u hu
  · rw [hwr] at hu
    rcases List.mem_append.mp hu with hu | hu
    · exact hFr u hu
    · exact hhigh u hu
  · by_cases h₂ : id = pg (g + 1) k₀
    · exact ⟨_, by rw [h₂, hq']⟩
    by_cases h₃ : id = ids created
    · exact ⟨_, by rw [h₃, hr']⟩
    rw [hF id h₂ h₃] at hid
    obtain ⟨m', hm'⟩ := hT.flying id hid
    by_cases h₁ : id = pg (g + 2) k₀
    · subst h₁
      have hlt : g + 2 < H := (hT.nodes (g + 2) hg k₀ _ hm').1
      obtain ⟨m₂, rfl, -⟩ := inner_of_ok (hpok hsort hdist) (Nat.succ_pos _) hlt
      exact ⟨m₂, hp'⟩
    · exact ⟨m', by rw [hv id h₁ h₂ h₃, hm']⟩

end Split

end TreeInv

end BEpsilon.BeTree
