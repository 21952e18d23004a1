import BEpsilon.BeTree.VisitLeaf

/-!
# BEpsilon.BeTree.VisitInner — the loop over inner children

One round merges the messages of a child into its buffer; when they do not fit, some are removed again
and the child goes to the queue with them, both halves of it when it might get too many pivots.
-/

namespace BEpsilon.BeTree

open Slots Keyed PageWorld

variable {K V : Type} [LinearOrder K] [Add V]
variable {W : Watch K V} {N : NodeSizes} {A : Prop} {T : K → ℕ} {C : K → Option V} {H : ℕ} {c : PageId}
  {hs : List ℕ} {old : List (PageId × MessageMap K V)} {header : Header} {n : BeInnerNode K V} {L : Leftover K V}

/-! ### Splitting an inner child -/

namespace Visiting

variable {ids : ℕ → PageId} {g : ℕ} {vn : BeInnerNode K V} {newPivots : List (ℕ × K × PageId)}
  {rest : MessageMap K V} {lm : List (Upsert K V)} {kids : List PageId}
  {mem mem' : PageId → Option (BeNode K V)} {F F' : PageId → List (Upsert K V)} {created : ℕ}
  {pg : ℕ → K → PageId}

/-- A child that has been visited is split, and with it the messages in flight below it. -/
theorem split_inner
    (hV : Visiting W ids N A T C H c (g + 1) n hs old newPivots rest lm kids mem F header created pg vn)
    (hinj : ∀ i j, ids i = ids j → i = j) {k₀ : K} (hc₀ : pg (g + 2) k₀ = c) (hq : pg (g + 1) k₀ ∈ kids)
    (hnew : ∀ t ∈ newPivots, t.1 ≠ lowerBound n.pivots n.size k₀)
    (hrest : ∀ e ∈ rest, e.1 ≠ lowerBound n.pivots n.size k₀) (hroom : vn.size + 1 + rest.length ≤ N.INNER_N)
    {m : BeInnerNode K V} (hm : mem (pg (g + 1) k₀) = some (.inner m)) (h2 : 2 ≤ m.size)
    (left right : List (Upsert K V)) (hperm : (left ++ right).Perm (F (pg (g + 1) k₀)))
    (hl : ∀ u ∈ left, u.key ≤ m.middleKey) (hr : ∀ u ∈ right, m.middleKey < u.key)
    (hmem' : mem' = Function.update (Function.update mem (ids created) (some (.inner (m.rightHalf L))))
      (pg (g + 1) k₀) (some (.inner m.leftHalf)))
    (hF' : F' = Function.update (Function.update F (ids created) right) (pg (g + 1) k₀) left) :
    ∃ pg' vn', Visiting W ids N A T C H c (g + 1) n hs old
      (newPivots ++ [(lowerBound n.pivots n.size k₀, m.middleKey, ids created)]) rest lm
      (kids ++ [ids created]) mem' F' header (created + 1) pg' vn' := by
  obtain ⟨hmq, hqc⟩ := hV.mem_eq hc₀
  have hlt := hV.lt
  have hT := hV.inv
  have hfresh : ∀ h ≤ H, ∀ k, pg h k ≠ ids created := fun h hh k => hT.fresh_page hinj le_rfl hh k
  have hqr : pg (g + 1) k₀ ≠ ids created := hfresh (g + 1) (by omega) k₀
  have hcr : c ≠ ids created := hc₀ ▸ hfresh (g + 2) (by omega) k₀
  have hmc : mem' c = mem c := by
    rw [hmem', Function.update_of_ne hqc.symm, Function.update_of_ne hcr]
  have hFc : F' c = F c := by
    rw [hF', Function.update_of_ne hqc.symm, Function.update_of_ne hcr]
  have hl' : mem' (pg (g + 1) k₀) = some (.inner m.leftHalf) := by rw [hmem', Function.update_self]
  have hr' : mem' (ids created) = some (.inner (m.rightHalf L)) := by
    rw [hmem', Function.update_of_ne hqr.symm, Function.update_self]
  have hFq : F' (pg (g + 1) k₀) = left := by rw [hF', Function.update_self]
  have hFr : F' (ids created) = right := by
    rw [hF', Function.update_of_ne hqr.symm, Function.update_self]
  have hS : NodeSplit ids N (Function.update mem c (some (.inner vn)))
      (Function.update mem' c (some (.inner (vn.learn k₀ m.middleKey (ids created))))) F F' created H pg
      (g + 1) k₀ m.middleKey := by
    refine hT.split_inner (.inner vn) (.inner (vn.learn k₀ m.middleKey (ids created))) L hinj (m := m)
      (by omega) (by rw [hc₀, Function.update_self]) rfl hV.grown.sorted hV.grown.distinct
      (by rw [← hmq, hm]) h2 (by rw [hc₀, Function.update_self]) rfl rfl (hV.learn_ok (by omega)) ?_ ?_
      (fun id h₁ h₂ h₃ => ?_) (fun id h₁ h₂ => ?_) ?_ ?_ ?_
    · rw [Function.update_of_ne hqc, hl']
    · rw [Function.update_of_ne hcr.symm, hr']
    · rw [hc₀] at h₁
      rw [Function.update_of_ne h₁, Function.update_of_ne h₁, hmem', Function.update_of_ne h₂,
        Function.update_of_ne h₃]
    · rw [hF', Function.update_of_ne h₁, Function.update_of_ne h₂]
    · rw [hFq, hFr]
      exact hperm
    · rw [hFq]
      exact hl
    · rw [hFr]
      exact hr
  exact ⟨_, _, hV.learn hinj hc₀ hq hnew hrest hroom hS hmc hFc⟩

end Visiting

/-! ### Entries of the queue -/

/-- What `enqueue` adds to the queue. -/
def enqueued (page : PageId) (messageMap : MessageMap K V) : List (PageId × MessageMap K V) :=
  if messageMap = [] then [] else [(page, messageMap)]

variable {R : PageRules} {kept : Prop}

section Enqueue

variable {α : Type} {mem : PageId → Option (BeNode K V)} {created : ℕ}
  {pins : List (PageId × Option (BeNode K V))} {recent : List PageId}
  {Q : α → PageWorld (BeNode K V) Header → Prop} {page : PageId} {l : List PageId}
  {messageMap : MessageMap K V} {queue : List (PageId × MessageMap K V)}

omit [LinearOrder K] [Add V] in
/-- A page without messages is released, the others stay pinned. -/
theorem runs_enqueue {f : List (PageId × MessageMap K V) → BeProg K V α}
    (hp : PinsAre pins (page :: l)) (hmem : (mem page).isSome)
    (h : ∀ pins' recent', PinsAre pins' ((enqueued page messageMap).map Prod.fst ++ l) →
      Runs (handler R) (f (queue ++ enqueued page messageMap))
        ⟨mem, created, header, pins', recent', kept⟩ Q) :
    Runs (handler R) ((enqueue page messageMap queue).bind f)
      ⟨mem, created, header, pins, recent, kept⟩ Q := by
  unfold enqueued at h
  cases messageMap with
  | nil =>
    simp only [if_true, List.append_nil] at h
    have he : enqueue page [] queue = (PageProg.unpinPage page true).bind fun _ => Prog.ret queue := rfl
    rw [he, Prog.bind_assoc]
    exact runs_release hp hmem fun pins' hp' => h pins' _ hp'
  | cons e map =>
    rw [if_neg (by simp)] at h
    exact h pins recent hp

omit [LinearOrder K] [Add V] in
theorem mem_enqueued {e : PageId × MessageMap K V} :
    e ∈ enqueued page messageMap ↔ e = (page, messageMap) ∧ messageMap ≠ [] := by
  unfold enqueued
  split
  next h => simp [h]
  next h => simp [h]

omit [LinearOrder K] [Add V] in
theorem enqueued_sublist : ((enqueued page messageMap).map Prod.fst).Sublist [page] := by
  unfold enqueued
  split
  · exact List.nil_sublist _
  · exact List.Sublist.refl _

omit [LinearOrder K] [Add V] in
variable (page messageMap) in
theorem length_enqueued_le : (enqueued page messageMap).length ≤ 1 := by
  unfold enqueued
  split <;> simp

omit [Add V] in
variable (L) in
/-- The halves of an inner node, with the parts of a message map for them. -/
theorem entries_of_halves {F : PageId → List (Upsert K V)} {pg : ℕ → K → PageId}
    {g : ℕ} {m : BeInnerNode K V} {r : PageId} (hs : Sorted m.pivots m.size) (h2 : 2 ≤ m.size)
    (hle : m.size ≤ N.INNER_N) (hmap : MapOk N m.pivots m.size messageMap) (hg : g + 1 < H)
    (hl : mem page = some (.inner m.leftHalf)) (hr : mem r = some (.inner (m.rightHalf L)))
    (hFl : F page = (splitMap ((m.size - 1) / 2) messageMap).1.messages)
    (hFr : F r = (splitMap ((m.size - 1) / 2) messageMap).2.messages) (hpl : ∃ k, pg (g + 1) k = page)
    (hpr : ∃ k, pg (g + 1) k = r) :
    ∀ e ∈ enqueued page (splitMap ((m.size - 1) / 2) messageMap).1 ++
      enqueued r (splitMap ((m.size - 1) / 2) messageMap).2, Entry N mem F H pg g e := by
  obtain ⟨hml, hmr, -⟩ := splitMap_ok hmap hs (s := (m.size - 1) / 2) (by omega) (p := L.pivots)
  have hodd := N.inner_odd
  intro e he
  rcases List.mem_append.mp he with he | he
  · obtain ⟨rfl, hne⟩ := mem_enqueued.mp he
    have hlen := hml.length_le
    refine ⟨hg, hpl, ⟨_, hl, hml, ?_⟩, hne, by rw [hFl]⟩
    rw [BeInnerNode.leftHalf]
    dsimp only
    omega
  · obtain ⟨rfl, hne⟩ := mem_enqueued.mp he
    have hlen := hmr.length_le
    refine ⟨hg, hpr, ⟨_, hr, hmr, ?_⟩, hne, by rw [hFr]⟩
    rw [BeInnerNode.rightHalf]
    dsimp only
    omega

omit [LinearOrder K] [Add V] in
/-- A page for which messages are in flight is put into the queue. -/
theorem mem_map_enqueued {F : PageId → List (Upsert K V)} (hF : F page = messageMap.messages)
    (hne : F page ≠ []) : page ∈ (enqueued page messageMap).map Prod.fst := by
  refine List.mem_map.mpr ⟨(page, messageMap), mem_enqueued.mpr ⟨rfl, ?_⟩, rfl⟩
  rintro rfl
  exact hne hF

end Enqueue

/-! ### The ways to deal with an inner child -/

/-- The children of `c`, of height `g + 1`, are visited, and `new` of them have been put into the queue. -/
structure InnerState (W : Watch K V) (ids : ℕ → PageId) (N : NodeSizes) (A : Prop) (T : K → ℕ) (C : K → Option V)
    (H : ℕ) (c : PageId) (g : ℕ) (n : BeInnerNode K V) (hs : List ℕ) (old : List (PageId × MessageMap K V))
    (newPivots : List (ℕ × K × PageId)) (rest : MessageMap K V) (new : List (PageId × MessageMap K V))
    (mem : PageId → Option (BeNode K V)) (F : PageId → List (Upsert K V)) (header : Header) (created : ℕ)
    (pg : ℕ → K → PageId) (vn : BeInnerNode K V) : Prop where
  visiting : Visiting W ids N A T C H c (g + 1) n hs old newPivots rest [] (new.map Prod.fst) mem F header
    created pg vn
  new : ∀ e ∈ new, Entry N mem F H pg g e

namespace InnerState

variable {ids : ℕ → PageId} {g : ℕ} {vn : BeInnerNode K V} {newPivots : List (ℕ × K × PageId)}
  {rest map : MessageMap K V} {new : List (PageId × MessageMap K V)} {mem : PageId → Option (BeNode K V)}
  {F : PageId → List (Upsert K V)} {created : ℕ} {pg : ℕ → K → PageId} {i : ℕ} {v : List (Upsert K V)}
  {m m' : BeInnerNode K V} {fl : List (Upsert K V)}

variable (m' fl) in
/-- The messages of the child are merged with its own, and `fl` stay in flight. -/
theorem push (hI : InnerState W ids N A T C H c g n hs old newPivots ((i, v) :: rest) new mem F header created
      pg vn) (hm : mem (n.children i) = some (.inner m))
    (hview : (BeNode.inner m').view = (BeNode.inner m).view) (hok : InnerNodeOk N m')
    (hmerge : (fl ++ m'.upserts.toList).Perm (mergeUpserts m.upserts.toList v)) :
    ∃ F', F' (n.children i) = fl ∧
      Visiting W ids N A T C H c (g + 1) n hs old newPivots rest [] (new.map Prod.fst ++ [n.children i])
        (Function.update mem (n.children i) (some (.inner m'))) F' header created pg vn ∧
      ∀ e ∈ new, Entry N (Function.update mem (n.children i) (some (.inner m'))) F' H pg g e := by
  have hV := hI.visiting
  have hfree := hV.child_free (e := (i, v)) List.mem_cons_self
  obtain ⟨k₀, -, hc₀, hq₀⟩ := hV.next_child
  refine ⟨_, Function.update_self _ _ _, hV.push hm hview hok hmerge, fun e he => ?_⟩
  have hkid : e.1 ∈ new.map Prod.fst := List.mem_map_of_mem he
  have h₁ : e.1 ≠ n.children i := fun h =>
    hfree (List.mem_cons_of_mem _ (List.mem_append_right _ (h ▸ hkid)))
  have h₂ : e.1 ≠ c := by
    obtain ⟨k, hk, -⟩ := hV.kid _ hkid
    have hlt := hV.lt
    rw [← hk, ← hc₀]
    exact hV.inv.routed.page_ne (by omega) (by omega) (by omega)
  refine (hI.new e he).congr (Function.update_of_ne h₁ _ _) ?_ (hI.new e he).page
  rw [Function.update_of_ne h₁, Function.update_of_ne h₂]

/-- All messages fit into the buffer of the child. -/
theorem merged (hI : InnerState W ids N A T C H c g n hs old newPivots ((i, v) :: rest) new mem F header created
      pg vn) (hm : mem (n.children i) = some (.inner m))
    (hok : InnerNodeOk N m) (hfit : v.length ≤ N.INNER_B_N - m.upserts.size) :
    ∃ F', InnerState W ids N A T C H c g n hs old newPivots rest new
      (Function.update mem (n.children i) (some (.inner { m with
        upserts := m.upserts.assign (mergeUpserts m.upserts.toList v) }))) F' header created pg vn := by
  obtain ⟨-, hvs, -, -⟩ := hI.visiting.map.vectors (i, v) List.mem_cons_self
  have hle := hok.upserts_le
  have hlen : (mergeUpserts m.upserts.toList v).length ≤ m.upserts.size + v.length := by
    have h : (mergeUpserts m.upserts.toList v).length ≤ m.upserts.toList.length + v.length :=
      length_mergeUpserts_le
    rwa [UpsertBuffer.length_toList] at h
  have hok' : InnerNodeOk N { m with upserts := m.upserts.assign (mergeUpserts m.upserts.toList v) } := by
    refine ⟨hok.sorted, hok.distinct, hok.size_le, ?_, ?_⟩
    · rw [UpsertBuffer.toList_assign]
      exact mergeUpserts_sorted hok.upserts hvs
    · rw [UpsertBuffer.size_assign]
      omega
  obtain ⟨F', hFq, hV', hnew⟩ := hI.push { m with
    upserts := m.upserts.assign (mergeUpserts m.upserts.toList v) } [] hm rfl hok'
    (by rw [UpsertBuffer.toList_assign]; rfl)
  refine ⟨F', hV'.drop (List.sublist_append_left _ _) fun z hz hn => ?_, hnew⟩
  rcases List.mem_append.mp hz with hz | hz
  · exact absurd hz hn
  · rw [List.mem_singleton.mp hz]
    exact hFq

variable (hI : InnerState W ids N A T C H c g n hs old newPivots ((i, v) :: rest) new mem F header created pg vn)
  (hm : mem (n.children i) = some (.inner m))
  (hok : InnerNodeOk N m) (hR : Removed N m m' v map)
include hI hm hok hR

omit hI hm in
theorem removed_ok : InnerNodeOk N m' := by
  refine ⟨?_, ?_, ?_, hR.sorted, hR.size_le⟩
  · rw [hR.pivots, hR.size]
    exact hok.sorted
  · rw [hR.children, hR.size]
    exact hok.distinct
  · rw [hR.size]
    exact hok.size_le

/-- The child has passed on the messages `map` again. -/
theorem removed : ∃ F', F' (n.children i) = map.messages ∧
    Visiting W ids N A T C H c (g + 1) n hs old newPivots rest [] (new.map Prod.fst ++ [n.children i])
      (Function.update mem (n.children i) (some (.inner m'))) F' header created pg vn ∧
    ∀ e ∈ new, Entry N (Function.update mem (n.children i) (some (.inner m'))) F' H pg g e := by
  refine hI.push _ _ hm ?_ (removed_ok hok hR) hR.perm
  rw [BeNode.view, BeNode.view, hR.pivots, hR.children, hR.size]

/-- The child goes to the queue. -/
theorem queued (hne : map ≠ []) (hroom : m.size + map.length ≤ N.INNER_N) :
    ∃ F', InnerState W ids N A T C H c g n hs old newPivots rest (new ++ [(n.children i, map)])
      (Function.update mem (n.children i) (some (.inner m'))) F' header created pg vn := by
  obtain ⟨F', hFq, hV', hnew⟩ := hI.removed hm hok hR
  obtain ⟨k₀, -, hc₀, hq₀⟩ := hI.visiting.next_child
  have hlt := hI.visiting.lt
  refine ⟨F', by rwa [List.map_append], fun e he => ?_⟩
  rcases List.mem_append.mp he with he | he
  · exact hnew e he
  · obtain rfl := List.mem_singleton.mp he
    refine ⟨by omega, ⟨k₀, hq₀⟩, ⟨m', Function.update_self _ _ _, ⟨hR.nodup, ?_⟩, ?_⟩, hne, ?_⟩
    · intro e' he'
      rw [hR.pivots, hR.size]
      exact hR.vectors e' he'
    · rw [hR.size]
      exact hroom
    · rw [hFq]

/-- The child is split, and its halves go to the queue where they have messages. -/
theorem split (L : Leftover K V) (hinj : ∀ i j, ids i = ids j → i = j) (h2 : 2 ≤ m.size)
    {map' : MessageMap K V} (hp : map'.Perm map) :
    ∃ F' pg' vn', InnerState W ids N A T C H c g n hs old (newPivots ++ [(i, m'.middleKey, ids created)]) rest
      (new ++ enqueued (n.children i) (splitMap ((m.size - 1) / 2) map').1 ++
        enqueued (ids created) (splitMap ((m.size - 1) / 2) map').2)
      (Function.update (Function.update (Function.update mem (n.children i) (some (.inner m')))
        (ids created) (some (.inner (m'.rightHalf L)))) (n.children i) (some (.inner m'.leftHalf)))
      F' header (created + 1) pg' vn' := by
  have hin : (i, v) ∈ (i, v) :: rest := List.mem_cons_self
  obtain ⟨F₁, hFq, hV₁, hnew⟩ := hI.removed hm hok hR
  obtain ⟨k₀, hi₀, hc₀, hq₀⟩ := hI.visiting.next_child
  have hok' := removed_ok hok hR
  have hsize := hR.size
  have hodd := N.inner_odd
  have hle := hok'.size_le
  have hlt := hI.visiting.lt
  have hroom := hI.visiting.room
  rw [List.length_cons] at hroom
  have hrest : ∀ e ∈ rest, e.1 ≠ lowerBound n.pivots n.size k₀ := fun e he => by
    obtain ⟨u, hu⟩ := List.exists_mem_of_ne_nil _
      (hI.visiting.map.vectors e (List.mem_cons_of_mem _ he)).1
    rw [hi₀]
    exact (hI.visiting.other_target he hu).1
  -- the messages of the halves
  have hmap' : MapOk N m'.pivots m'.size map' := by
    refine MapOk.perm ⟨hR.nodup, fun e he => ?_⟩ hp
    rw [hR.pivots, hR.size]
    exact hR.vectors e he
  set s := (m.size - 1) / 2 with hs'
  have hmid : m'.middleKey = m'.pivots s := by rw [BeInnerNode.middleKey, hsize]
  obtain ⟨hml, hmr, hperm, hlow, hhigh⟩ := splitMap_ok hmap' hok'.sorted (s := s) (by omega)
    (p := L.pivots)
  have hmem₁ : Function.update mem (n.children i) (some (.inner m')) (pg (g + 1) k₀) = some (.inner m') := by
    rw [hq₀, Function.update_self]
  obtain ⟨pg', vn', hV₂⟩ := hV₁.split_inner hinj (m := m') hc₀
    (by rw [hq₀]; exact List.mem_append_right _ (List.mem_singleton_self _))
    (by rw [hi₀]; exact hI.visiting.unseen _ hin) hrest (by omega) hmem₁ (by omega)
    (splitMap s map').1.messages (splitMap s map').2.messages (by
      rw [hq₀, hFq]
      exact hperm.trans (hp.flatMap_right _))
    (by rw [hmid]; exact hlow) (by rw [hmid]; exact hhigh) rfl rfl
  rw [hi₀, hq₀] at hV₂
  set q := n.children i with hq
  set F₂ := Function.update (Function.update F₁ (ids created) (splitMap s map').2.messages) q
    (splitMap s map').1.messages with hF₂
  have hqr : q ≠ ids created := by
    rw [← hq₀]
    exact hI.visiting.inv.fresh_page hinj le_rfl (by omega) k₀
  have hFl : F₂ q = (splitMap s map').1.messages := by rw [hF₂, Function.update_self]
  have hFr : F₂ (ids created) = (splitMap s map').2.messages := by
    rw [hF₂, Function.update_of_ne hqr.symm, Function.update_self]
  refine ⟨F₂, pg', vn', ?_, fun e he => ?_⟩
  · -- a half without messages is given up
    have hsub : ((new ++ enqueued q (splitMap s map').1 ++ enqueued (ids created) (splitMap s map').2).map
        Prod.fst).Sublist (new.map Prod.fst ++ [q] ++ [ids created]) := by
      rw [List.map_append, List.map_append]
      exact ((List.Sublist.refl _).append enqueued_sublist).append enqueued_sublist
    refine hV₂.drop hsub fun z hz hn => by_contra fun hF => hn ?_
    rw [List.map_append, List.map_append]
    rcases List.mem_append.mp hz with hz | hz
    · rcases List.mem_append.mp hz with hz | hz
      · exact List.mem_append_left _ (List.mem_append_left _ hz)
      · obtain rfl := List.mem_singleton.mp hz
        exact List.mem_append_left _ (List.mem_append_right _ (mem_map_enqueued hFl hF))
    · obtain rfl := List.mem_singleton.mp hz
      exact List.mem_append_right _ (mem_map_enqueued hFr hF)
  · have hkid : ∀ z ∈ new.map Prod.fst ++ [q] ++ [ids created], ∃ k, pg' (g + 1) k = z := fun z hz => by
      obtain ⟨k, hk, -⟩ := hV₂.kid z hz
      exact ⟨k, hk⟩
    rw [List.append_assoc] at he
    rcases List.mem_append.mp he with he | he
    · have hmemk : e.1 ∈ new.map Prod.fst := List.mem_map_of_mem he
      have h₁ : e.1 ≠ q := fun h => by
        refine hI.visiting.child_free hin (List.mem_cons_of_mem _ (List.mem_append_right _ ?_))
        rw [← hq, ← h]
        exact hmemk
      have h₂ : e.1 ≠ ids created := fun h => by
        obtain ⟨k, hk, -⟩ := hI.visiting.kid _ hmemk
        exact hI.visiting.inv.fresh_page hinj le_rfl (by omega) k (hk.trans h)
      refine (hnew e he).congr ?_ ?_ (hkid _ (List.mem_append_left _ (List.mem_append_left _ hmemk)))
      · rw [Function.update_of_ne h₁, Function.update_of_ne h₂]
      · rw [hF₂, Function.update_of_ne h₁, Function.update_of_ne h₂]
    · rw [hs', ← hsize] at he hFl hFr
      refine entries_of_halves L hok'.sorted (by omega) hle hmap' (by omega) (Function.update_self _ _ _) ?_
        hFl hFr ?_ ?_ e he
      · rw [Function.update_of_ne hqr.symm, Function.update_self]
      · exact hkid _ (List.mem_append_left _ (List.mem_append_right _ (List.mem_singleton_self _)))
      · exact hkid _ (List.mem_append_right _ (List.mem_singleton_self _))

end InnerState

end BEpsilon.BeTree
