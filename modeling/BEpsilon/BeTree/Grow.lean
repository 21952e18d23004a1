import BEpsilon.Lib.Chunks
import BEpsilon.BeTree.Moves

/-!
# BEpsilon.BeTree.Grow — new levels below the root page

The root page hands its contents to `m` fresh pages and becomes a root node over them: a full leaf when
the first root node is made, a full root node when it is cut into inner nodes with empty buffers.
-/

namespace BEpsilon.BeTree

open Slots Keyed

variable {K V : Type} [LinearOrder K]

/-- The messages in flight between two calls. -/
abbrev noFlight : PageId → List (Upsert K V) := fun _ => []

/-- The root page has handed the keys `k` to the fresh pages `ids (created + f k)`. -/
structure RootGrown (ids : ℕ → PageId) (N : NodeSizes) (mem mem' : PageId → Option (BeNode K V))
    (rootPage : PageId) (created H : ℕ) (pg : ℕ → K → PageId) (m : ℕ) (f : K → ℕ) : Prop where
  lt : ∀ k, f k < m
  surj : ∀ i < m, ∃ k, f k = i
  root : ∃ nr : BeRootNode K, mem' rootPage = some (.root nr) ∧ RootOk N nr ∧
    (∀ k, Fanout.route nr.pivots nr.children nr.size k = ids (created + f k)) ∧
    ∀ c, c ∈ Fanout.childSet nr.children nr.size ↔ ∃ i < m, c = ids (created + i)
  new : ∀ i < m, ∃ d, mem' (ids (created + i)) = some d ∧ NodeOk N H (H + 1) d ∧ d.messages = []
  leaf : H = 0 → ∀ k, ∃ t, mem' (ids (created + f k)) = some (.leaf t) ∧
    (∀ x ∈ t.keySet, f x = f k) ∧ t.get k = leafEntry mem pg k
  inner : ∀ g, H = g + 1 → ∀ k, ∃ fk Pk Ck,
    views mem' (ids (created + f k)) = some (.inner fk Pk Ck) ∧ fk k = pg g k ∧ fk k ∈ Ck ∧
    (∀ x ∈ Pk, f x = f k) ∧ ∀ c ∈ Ck, ∃ x, pg g x = c ∧ f x = f k
  side : ∀ g, H = g + 1 → ∀ k k', pg g k = pg g k' → f k = f k'
  others : ∀ id, id ≠ rootPage → (∀ i < m, id ≠ ids (created + i)) → mem' id = mem id

namespace RootGrown

variable {ids : ℕ → PageId} {N : NodeSizes} {mem mem' : PageId → Option (BeNode K V)}
  {header : Header} {created H : ℕ} {pg : ℕ → K → PageId} {m : ℕ} {f : K → ℕ}

variable (hT : TreeInv ids N mem noFlight header created H pg) (hinj : ∀ i j, ids i = ids j → i = j)
  (hG : RootGrown ids N mem mem' header.rootID created H pg m f)
include hT hinj hG

/-- Below the level of the new pages nothing has changed. -/
theorem mem_old {h : ℕ} (hh : h < H) (k : K) : mem' (pg h k) = mem (pg h k) := by
  refine hG.others _ ?_ fun i _ => hT.fresh_page hinj (by omega) hh.le k
  rw [← hT.routed.top k]
  exact hT.routed.page_ne hh.le le_rfl (by omega)

theorem treeInv : TreeInv ids N mem' noFlight { header with rootLeaf := false } (created + m) (H + 1)
    (Routed.growPg pg H header.rootID fun k => ids (created + f k)) := by
  obtain ⟨nr, hroot, hok, hroute, hch⟩ := hG.root
  have hview : views mem' header.rootID = some (.inner (fun k => ids (created + f k))
      (Fanout.pivotSet nr.pivots nr.size) (Fanout.childSet nr.children nr.size)) := by
    rw [views_root hroot, Fanout.view, funext hroute]
  have hf : ∀ {k k'}, ids (created + f k) = ids (created + f k') ↔ f k = f k' := fun {k k'} =>
    ⟨fun e => by have := hinj _ _ e; omega, fun e => by rw [e]⟩
  refine ⟨hT.routed.grow (fun k h hh k' => (hT.fresh_page hinj (by omega) hh k').symm) hview
    (fun c => ?_) (fun h0 k => ?_)
    (fun g hg k => ?_) (fun g hg k k' e => hf.mpr (hG.side g hg k k' e)) (fun id h₁ h₂ => ?_),
    fun h hh k d hd => ?_, by simp, fun h hh k => ?_, fun id hid => absurd rfl hid, fun id hid => ?_,
    fun i hi => ?_⟩
  · rw [hch]
    constructor
    · rintro ⟨i, hi, rfl⟩
      obtain ⟨k, rfl⟩ := hG.surj i hi
      exact ⟨k, rfl⟩
    · rintro ⟨k, rfl⟩
      exact ⟨_, hG.lt k, rfl⟩
  · obtain ⟨t, ht, hk, -⟩ := hG.leaf h0 k
    exact ⟨_, views_leaf ht, fun x hx => hf.mpr (hk x hx)⟩
  · obtain ⟨fk, Pk, Ck, h₁, h₂, h₃, h₄, h₅⟩ := hG.inner g hg k
    refine ⟨fk, Pk, Ck, h₁, h₂, h₃, fun x hx => hf.mpr (h₄ x hx), fun c hc => ?_⟩
    obtain ⟨x, hx, e⟩ := h₅ c hc
    exact ⟨x, hx, hf.mpr e⟩
  · rw [views, hG.others id h₁ fun i hi e => ?_, views]
    obtain ⟨k, rfl⟩ := hG.surj i hi
    exact h₂ k e
  · rcases Nat.lt_trichotomy h H with hlt | rfl | hgt
    · rw [Routed.growPg_old hlt, hG.mem_old hT hinj hlt] at hd
      have hn := hT.nodes h hlt.le k d hd
      cases d with
      | leaf n => exact hn
      | inner n => exact ⟨by omega, hn.2⟩
      | root n => exact absurd hn.1 (by omega)
    · rw [Routed.growPg_new] at hd
      obtain ⟨d', hd', hok', -⟩ := hG.new _ (hG.lt k)
      rw [hd'] at hd
      exact Option.some.inj hd ▸ hok'
    · obtain rfl : h = H + 1 := by omega
      rw [Routed.growPg_top, hroot] at hd
      exact Option.some.inj hd ▸ ⟨rfl, hok⟩
  · rcases Nat.lt_trichotomy h H with hlt | rfl | hgt
    · rw [Routed.growPg_old hlt, waitingAt, hG.mem_old hT hinj hlt]
      refine (hT.waiting h hlt.le k).congr fun u _ e => ?_
      rw [Routed.growPg_old hlt]
      exact e
    · rw [Routed.growPg_new]
      obtain ⟨d', hd', -, hm⟩ := hG.new _ (hG.lt k)
      rw [waitingAt, hd', Option.elim_some, hm]
      exact Waiting.nil _ _ _
    · obtain rfl : h = H + 1 := by omega
      rw [Routed.growPg_top, waitingAt, hroot]
      exact Waiting.nil _ _ _
  · by_cases h₁ : id = header.rootID
    · obtain ⟨k, -⟩ := hG.surj 0 (by
        by_contra hm
        obtain rfl : m = 0 := by omega
        have hc := (hch (nr.children 0)).mp ⟨0, Nat.zero_le _, rfl⟩
        obtain ⟨i, hi, -⟩ := hc
        omega)
      obtain ⟨i, hi, e⟩ := hT.known _ (hT.mem_page le_rfl k)
      exact ⟨i, by omega, by rw [e, hT.routed.top, h₁]⟩
    by_cases h₂ : ∃ i < m, id = ids (created + i)
    · obtain ⟨i, hi, e⟩ := h₂
      exact ⟨created + i, by omega, e.symm⟩
    · push Not at h₂
      obtain ⟨i, hi, e⟩ := hT.known id (by rw [← hG.others id h₁ h₂]; exact hid)
      exact ⟨i, by omega, e⟩
  · rcases Nat.lt_or_ge i created with hlt | hge
    · obtain ⟨h, hh, k, e⟩ := hT.all i hlt
      rcases hh.lt_or_eq with hlt' | rfl
      · exact ⟨h, by omega, k, by rw [Routed.growPg_old hlt', e]⟩
      · exact ⟨h + 1, le_rfl, k, by rw [Routed.growPg_top, ← e, hT.routed.top]⟩
    · obtain ⟨k, hk⟩ := hG.surj (i - created) (by omega)
      exact ⟨H, by omega, k, by rw [Routed.growPg_new, hk, Nat.add_sub_cancel' hge]⟩

theorem levels_eq :
    levels mem' noFlight (Routed.growPg pg H header.rootID fun k => ids (created + f k)) (H + 1) =
      levels mem noFlight pg H := by
  funext h k
  rcases Nat.lt_trichotomy h H with hlt | rfl | hgt
  · rw [levels_apply (by omega), levels_apply hlt.le, Routed.growPg_old hlt, waitingAt, waitingAt,
      hG.mem_old hT hinj hlt]
  · obtain ⟨d', hd', -, hm⟩ := hG.new _ (hG.lt k)
    rw [hT.levels_top le_rfl, levels_apply (by omega), Routed.growPg_new, waitingAt, hd',
      Option.elim_some, hm]
    rfl
  · rw [hT.levels_top hgt.le, (hG.treeInv hT hinj).levels_top hgt]

theorem leafEntry_eq :
    leafEntry mem' (Routed.growPg pg H header.rootID fun k => ids (created + f k)) = leafEntry mem pg := by
  funext k
  rcases Nat.eq_zero_or_pos H with rfl | hpos
  · obtain ⟨t, ht, -, hget⟩ := hG.leaf rfl k
    rw [leafEntry_of_leaf (n := t) (by rw [Routed.growPg_new, ht]), hget]
  · rw [leafEntry, leafEntry, Routed.growPg_old hpos, hG.mem_old hT hinj hpos]

/-- The tree holds what it held. -/
theorem held [Add V] {T : K → ℕ} {C : K → Option V} (hH : Held T mem noFlight pg H C) :
    Held T mem' noFlight (Routed.growPg pg H header.rootID fun k => ids (created + f k)) (H + 1) C where
  ordered := by
    rw [hG.levels_eq hT hinj]
    exact hH.ordered
  content ha k := by
    rw [hG.levels_eq hT hinj, hG.leafEntry_eq hT hinj, Levels.content_above (Nat.le_succ H)
      fun g hg => hT.levels_top hg.le k]
    exact hH.content (ha.imp_left fun h => (Nat.le_succ H).trans h) k

end RootGrown

/-! ### The first root node -/

section Leaf

variable {ids : ℕ → PageId} {N : NodeSizes} {mem mem' : PageId → Option (BeNode K V)}
  {header : Header} {created : ℕ} {pg : ℕ → K → PageId} {L : Leftover K V} {mid : K} {a b : PageId}

/-- The root node over the halves of a leaf. -/
def newRootNode (L : Leftover K V) (mid : K) (a b : PageId) : BeRootNode K where
  pivots := Function.update L.pivots 0 mid
  children := Function.update (Function.update L.children 0 a) 1 b
  size := 1

theorem route_newRoot (mid : K) (a b : PageId) (k : K) :
    Fanout.route (newRootNode L mid a b).pivots (newRootNode L mid a b).children (newRootNode L mid a b).size k =
      if k ≤ mid then a else b := by
  have hlb : lowerBound (newRootNode L mid a b).pivots (newRootNode L mid a b).size k =
      if k ≤ mid then 0 else 1 := by
    refine lowerBound_eq_iff.mpr ?_
    split
    next h => exact ⟨by simp, by simp, fun _ => by simpa [newRootNode] using h⟩
    next h =>
      refine ⟨by simp [newRootNode], fun j hj => ?_, fun h1 => by simp [newRootNode] at h1⟩
      obtain rfl : j = 0 := by omega
      simpa [newRootNode] using h
  rw [Fanout.route, hlb]
  split <;> simp [newRootNode]

theorem newRoot_ok (hN : 1 ≤ N.ROOT_N) (hab : a ≠ b) : RootOk N (newRootNode L mid a b) := by
  refine ⟨fun i j hij hj => ?_, fun i j hi hj e => ?_, hN⟩
  · simp only [newRootNode] at hj
    omega
  · simp only [newRootNode] at hi hj e
    rcases (by omega : i = 0 ∨ i = 1) with rfl | rfl <;>
      rcases (by omega : j = 0 ∨ j = 1) with rfl | rfl <;> simp_all [eq_comm]

/-- The root leaf has moved to two fresh pages, the right half to the first one. -/
theorem rootGrown_leaf (hT : TreeInv ids N mem noFlight header created 0 pg)
    (hinj : ∀ i j, ids i = ids j → i = j) (hN : 1 ≤ N.ROOT_N) {t tl tr : BeLeafNode K V}
    (ht : mem header.rootID = some (.leaf t)) (hcut : Halves t tl tr mid) (hl : tl.size ≤ N.LEAF_N)
    (hr : tr.size ≤ N.LEAF_N) {x : K} (hx : mid < x)
    (hroot : mem' header.rootID =
      some (.root (newRootNode L mid (ids (created + 1)) (ids created))))
    (hl' : mem' (ids (created + 1)) = some (.leaf tl)) (hr' : mem' (ids created) = some (.leaf tr))
    (hv : ∀ id, id ≠ header.rootID → id ≠ ids (created + 1) → id ≠ ids created → mem' id = mem id) :
    RootGrown ids N mem mem' header.rootID created 0 pg 2 fun k => if k ≤ mid then 1 else 0 := by
  have hside : ∀ k, ids (created + if k ≤ mid then 1 else 0) =
      if k ≤ mid then ids (created + 1) else ids created := fun k => by split <;> rfl
  have hentry : ∀ k, leafEntry mem pg k = t.get k := fun k =>
    leafEntry_of_leaf (by rw [hT.routed.top, ht])
  refine ⟨fun k => by split <;> omega, fun i hi => ?_, ⟨_, hroot, newRoot_ok hN ?_, fun k => ?_,
    fun c => ?_⟩, fun i hi => ?_, fun _ k => ?_, fun g hg => by omega, fun g hg => by omega,
    fun id h₁ h₂ => ?_⟩
  · rcases (by omega : i = 0 ∨ i = 1) with rfl | rfl
    · exact ⟨x, if_neg (not_le.mpr hx)⟩
    · exact ⟨mid, if_pos le_rfl⟩
  · intro e
    have := hinj _ _ e
    omega
  · rw [route_newRoot, hside]
  · constructor
    · rintro ⟨i, hi, rfl⟩
      simp only [newRootNode] at hi
      rcases (by omega : i = 0 ∨ i = 1) with rfl | rfl
      · exact ⟨1, by omega, by simp [newRootNode]⟩
      · exact ⟨0, by omega, by simp [newRootNode]⟩
    · rintro ⟨i, hi, rfl⟩
      rcases (by omega : i = 0 ∨ i = 1) with rfl | rfl
      · exact ⟨1, le_rfl, by simp [newRootNode]⟩
      · exact ⟨0, Nat.zero_le _, by simp [newRootNode]⟩
  · rcases (by omega : i = 0 ∨ i = 1) with rfl | rfl
    · exact ⟨_, hr', ⟨rfl, hcut.right_sorted, hr⟩, rfl⟩
    · exact ⟨_, hl', ⟨rfl, hcut.left_sorted, hl⟩, rfl⟩
  · rw [hentry]
    rcases le_or_gt k mid with hk | hk
    · refine ⟨tl, by rw [if_pos hk, hl'], fun y hy => ?_, hcut.left_get k hk⟩
      rw [if_pos hk, if_pos (hcut.left_keys y hy).2]
    · refine ⟨tr, by rw [if_neg (not_le.mpr hk), Nat.add_zero, hr'], fun y hy => ?_, hcut.right_get k hk⟩
      rw [if_neg (not_le.mpr hk), if_neg (not_le.mpr (hcut.right_keys y hy).2)]
  · exact hv id h₁ (h₂ 1 (by omega)) (h₂ 0 (by omega))

end Leaf

/-! ### A full root node -/

section Root

variable {ids : ℕ → PageId} {N : NodeSizes} {mem mem' : PageId → Option (BeNode K V)}
  {header : Header} {created g w : ℕ} {pg : ℕ → K → PageId} {r nr : BeRootNode K}

/-- The root node has handed its children to inner nodes, in chunks of `w`. -/
theorem rootGrown_root [Nonempty K] (hT : TreeInv ids N mem noFlight header created (g + 1) pg)
    (hinj : ∀ i j, ids i = ids j → i = j) (hr : mem header.rootID = some (.root r)) (hok : RootOk N r)
    (hw : 0 < w) (hwN : w ≤ N.INNER_N + 1) (hroot : mem' header.rootID = some (.root nr))
    (hsize : nr.size = r.size / w) (hsep : Fanout.Separators r.pivots w (r.size / w) nr.pivots)
    (hch : ∀ t ≤ r.size / w, nr.children t = ids (created + t))
    (hnew : ∀ t ≤ r.size / w, ∃ n : BeInnerNode K V, mem' (ids (created + t)) = some (.inner n) ∧
      Fanout.Chunk r.pivots r.children r.size w t n.pivots n.children n.size ∧ n.upserts.size = 0)
    (hv : ∀ id, id ≠ header.rootID → (∀ t ≤ r.size / w, id ≠ ids (created + t)) → mem' id = mem id) :
    RootGrown ids N mem mem' header.rootID created (g + 1) pg (r.size / w + 1)
      fun k => lowerBound r.pivots r.size k / w := by
  obtain ⟨k₀⟩ := ‹Nonempty K›
  have hview : views mem (pg (g + 1) k₀) = some (Fanout.view r.pivots r.children r.size) := by
    rw [hT.routed.top]
    exact views_root hr
  have htop : ∀ k, pg (g + 1) k = pg (g + 1) k₀ := fun k => by rw [hT.routed.top, hT.routed.top]
  obtain ⟨hroute, -, -⟩ := Fanout.inner_facts hT.routed (Nat.lt_succ_self g) hview
  have hle : ∀ k, lowerBound r.pivots r.size k / w ≤ r.size / w := fun k =>
    Nat.div_le_div_right (lowerBound_le _ _ _)
  -- a key for every child
  have hkey : ∀ i ≤ r.size, ∃ x, pg g x = r.children i ∧ lowerBound r.pivots r.size x = i := by
    intro i hi
    obtain ⟨⟨x, hx, -⟩, hall⟩ :=
      Fanout.child_keys hT.routed (Nat.lt_succ_self g) hview hok.distinct hi
    exact ⟨x, hx, (hall x hx).2⟩
  have hnil : ∀ n : BeInnerNode K V, n.upserts.size = 0 → n.upserts.toList = [] := fun n h => by
    simp [UpsertBuffer.toList, Slots.toList, h]
  have hsort : Sorted nr.pivots nr.size := hsize ▸ Fanout.sorted_separators hok.sorted hw hsep
  have hdist : Fanout.Distinct nr.children nr.size := fun i j hi hj e => by
    rw [hsize] at hi hj
    rw [hch i hi, hch j hj] at e
    have := hinj _ _ e
    omega
  refine ⟨fun k => Nat.lt_succ_of_le (hle k), fun i hi => ?_, ⟨nr, hroot, ⟨hsort, hdist, ?_⟩, fun k => ?_,
    fun c => ?_⟩, fun i hi => ?_, fun h0 => by omega, fun g' hg' k => ?_, fun g' hg' k k' e => ?_,
    fun id h₁ h₂ => hv id h₁ fun t ht => h₂ t (by omega)⟩
  · have hi' : i * w ≤ r.size := (Nat.mul_le_mul_right w (Nat.lt_succ_iff.mp hi)).trans
      (Nat.div_mul_le_self _ _)
    obtain ⟨x, -, hx⟩ := hkey (i * w) hi'
    exact ⟨x, by rw [hx, Nat.mul_div_cancel _ hw]⟩
  · rw [hsize]
    exact (Nat.div_le_self _ _).trans hok.size_le
  · rw [Fanout.route, hsize, Fanout.lowerBound_separators hok.sorted hw hsep, hch _ (hle k)]
  · rw [Fanout.childSet, hsize]
    constructor
    · rintro ⟨i, hi, rfl⟩
      exact ⟨i, by omega, hch i hi⟩
    · rintro ⟨i, hi, rfl⟩
      exact ⟨i, by omega, hch i (by omega)⟩
  · obtain ⟨n, hn, hc, hu⟩ := hnew i (by omega)
    have hb := hc.bounds hw (by omega)
    refine ⟨_, hn, ⟨by omega, hc.sorted hok.sorted hw (by omega), hc.distinct hok.distinct hw (by omega),
      by omega, ?_, by omega⟩, hnil n hu⟩
    rw [hnil n hu]
    exact List.Pairwise.nil
  · obtain rfl : g' = g := by omega
    obtain ⟨n, hn, hc, hu⟩ := hnew _ (hle k)
    refine ⟨_, _, _, views_inner hn, ?_, Fanout.route_mem k, fun x hx => ?_, fun c hm => ?_⟩
    · rw [hc.route_eq hw rfl, hroute k (htop k)]
    · exact hc.pivot_div hok.sorted hw (hle k) hx
    · obtain ⟨i, hi, hdiv, rfl⟩ := hc.child_index hw (hle k) hm
      obtain ⟨x, hx, hlb⟩ := hkey i hi
      exact ⟨x, hx, by rw [hlb, hdiv]⟩
  · obtain rfl : g' = g := by omega
    have hlb : lowerBound r.pivots r.size k = lowerBound r.pivots r.size k' := by
      rw [← Fanout.route_eq_iff hok.distinct, hroute k (htop k), hroute k' (htop k'), e]
    rw [hlb]

end Root

end BEpsilon.BeTree
