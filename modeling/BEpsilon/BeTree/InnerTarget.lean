import BEpsilon.BeTree.TopBuffer

/-!
# BEpsilon.BeTree.InnerTarget — a message for an inner node below the root node

The message comes into the buffer; when that is full, messages are removed and flushed.  A node that might
get too many pivots by the flush is split before, which needs the root node latched exclusively.
-/

namespace BEpsilon.BeTree

open Slots Keyed PageWorld

variable {K V : Type} [LinearOrder K] [Add V]

namespace Keeps

variable {ids : ℕ → PageId} {N : NodeSizes} {A : Prop} {T : K → ℕ} {C : K → Option V}
  {mem : PageId → Option (BeNode K V)} {F : PageId → List (Upsert K V)} {header : Header}
  {created g : ℕ} {pg : ℕ → K → PageId}

/-- Messages are removed from a node below the root node, together with a new one. -/
theorem post_removed (hK : Keeps ids N A T C mem noFlight header created (g + 2) pg) {u : Upsert K V} {T' : K → ℕ}
    (hA : A → Newest T u T')
    (hu : u.type ≠ .INVALID) {n n' : BeInnerNode K V} {map : MessageMap K V}
    (hn : mem (pg (g + 1) u.key) = some (.inner n)) (hok : InnerNodeOk N n) (hR : Removed N n n' [u] map) :
    Keeps ids N A T' (Function.update C u.key (u.effect (C u.key)))
      (Function.update mem (pg (g + 1) u.key) (some (.inner n')))
      (Function.update noFlight (pg (g + 1) u.key) map.messages) header created (g + 2) pg := by
  have hW := hK.inv.waiting (g + 1) (by omega) u.key
  rw [waitingAt_inner hn, List.nil_append] at hW
  have hone : Waiting pg (g + 1) (pg (g + 1) u.key) [u] :=
    ⟨List.nodup_singleton _, by simp, by simpa using hu⟩
  have hself : Function.update noFlight (pg (g + 1) u.key) map.messages (pg (g + 1) u.key) =
      map.messages := Function.update_self _ _ _
  refine hK.post hA hu hn ?_ (InnerState.removed_ok hok hR) ?_ (fun _ => ?_) fun id hid => ?_
  · rw [BeNode.view, BeNode.view, hR.pivots, hR.children, hR.size]
  · rw [hself]
    exact (hW.merge hok.upserts (List.pairwise_singleton _ _) hone).perm hR.perm
  · rw [hself]
    exact hR.perm
  · rw [Function.update_of_ne hid]

end Keeps

omit [Add V] in
/-- An inner node below the root node is split, and with it the messages in flight below it. -/
theorem TreeInv.split_target_inner (L : Leftover K V) {ids : ℕ → PageId} {N : NodeSizes}
    {mem : PageId → Option (BeNode K V)} {F : PageId → List (Upsert K V)} {header : Header}
    {created g : ℕ} {pg : ℕ → K → PageId} (hT : TreeInv ids N mem F header created (g + 2) pg)
    (hinj : ∀ i j, ids i = ids j → i = j) (root : BeRootNode K)
    (hroot : mem header.rootID = some (.root root)) (hok : RootOk N root) (hroom : root.size < N.ROOT_N)
    {k₀ : K} {m : BeInnerNode K V} (hm : mem (pg (g + 1) k₀) = some (.inner m)) (h2 : 2 ≤ m.size)
    {left right : List (Upsert K V)} (hperm : (left ++ right).Perm (F (pg (g + 1) k₀)))
    (hl : ∀ u ∈ left, u.key ≤ m.middleKey) (hr : ∀ u ∈ right, m.middleKey < u.key) :
    NodeSplit ids N mem
      (Function.update (Function.update (Function.update mem (ids created) (some (.inner (m.rightHalf L))))
        (pg (g + 1) k₀) (some (.inner m.leftHalf))) header.rootID
        (some (.root (root.insertPivot (lowerBound root.pivots root.size k₀) m.middleKey (ids created)))))
      F (Function.update (Function.update F (ids created) right) (pg (g + 1) k₀) left) created (g + 2) pg
      (g + 1) k₀ m.middleKey := by
  have hfresh : ∀ h ≤ g + 2, ∀ k, pg h k ≠ ids created := fun h hh k => hT.fresh_page hinj le_rfl hh k
  have htop : pg (g + 2) k₀ = header.rootID := hT.routed.top k₀
  have hqr : pg (g + 1) k₀ ≠ ids created := hfresh (g + 1) (by omega) k₀
  have hrc : header.rootID ≠ ids created := htop ▸ hfresh (g + 2) le_rfl k₀
  have hqroot : pg (g + 1) k₀ ≠ header.rootID := by
    rw [← htop]
    exact hT.routed.page_ne (by omega) le_rfl (by omega)
  refine hT.split_inner (.root root)
    (.root (root.insertPivot (lowerBound root.pivots root.size k₀) m.middleKey (ids created))) L hinj (m := m)
    (by omega) (by rw [htop, hroot]) rfl hok.sorted hok.distinct hm h2 (by rw [htop, Function.update_self])
    rfl rfl (insertPivot_ok hroom) ?_ ?_ (fun id h₁ h₂ h₃ => ?_) (fun id h₁ h₂ => ?_) ?_ ?_ ?_
  · rw [Function.update_of_ne hqroot, Function.update_self]
  · rw [Function.update_of_ne hrc.symm, Function.update_of_ne hqr.symm, Function.update_self]
  · rw [htop] at h₁
    rw [Function.update_of_ne h₁, Function.update_of_ne h₂, Function.update_of_ne h₃]
  · rw [Function.update_of_ne h₁, Function.update_of_ne h₂]
  · rw [Function.update_self, Function.update_of_ne hqr.symm, Function.update_self]
    exact hperm
  · rw [Function.update_self]
    exact hl
  · rw [Function.update_of_ne hqr.symm, Function.update_self]
    exact hr

section Routine

variable [BoundedOrder K] [DecidableEq V] [Inhabited K] [Inhabited V]
variable {W : Watch K V} {R : PageRules} {N : NodeSizes} {O : Unspecified K V} {A : Prop} {T T' : K → ℕ}
  {C : K → Option V} {header : Header} {kept : Prop} {mem : PageId → Option (BeNode K V)} {created g : ℕ}
  {recent : List PageId} {pg : ℕ → K → PageId} {u : Upsert K V} {root : BeRootNode K}
  {n : BeInnerNode K V} {pins : List (PageId × Option (BeNode K V))} {page : PageId}
  {F : PageId → List (Upsert K V)} {H : ℕ}

omit [LinearOrder K] [Add V] [BoundedOrder K] [DecidableEq V] [Inhabited K] [Inhabited V] in
/-- The root page is released when it is latched exclusively. -/
theorem runs_releaseRoot {exclusiveMode splitRoot : Bool} {rootPage : PageId} {p : BeProg K V Bool}
    {Q : Bool → PageWorld (BeNode K V) Header → Prop} (hmem : (mem rootPage).isSome)
    (hp : PinsAre pins (page :: if exclusiveMode then [rootPage] else []))
    (hr : ∀ s, (rootPage, s) ∈ pins → splitRoot = true ∨ mem rootPage = s)
    (h : ∀ pins' recent', PinsAre pins' [page] →
      Runs (handler R) p ⟨mem, created, header, pins', recent', kept⟩ Q) :
    Runs (handler R)
      (if exclusiveMode = true then (PageProg.unpinPage rootPage splitRoot).bind fun _ => p else p)
      ⟨mem, created, header, pins, recent, kept⟩ Q := by
  cases exclusiveMode with
  | false => exact h pins recent hp
  | true => exact runs_unpin_one (hp.perm (List.Perm.swap _ _ _)) hmem hr fun pins' hp' _ => h pins' _ hp'

omit [LinearOrder K] [Add V] [BoundedOrder K] [DecidableEq V] [Inhabited K] [Inhabited V] in
/-- The last page is released dirty, with the tree as it shall be after the call. -/
theorem runs_release_last {p : BeProg K V Bool} {Q : Bool → PageWorld (BeNode K V) Header → Prop}
    (hmem : (mem page).isSome) (hp : PinsAre pins [page])
    (h : ∀ recent', Runs (handler R) p ⟨mem, created, header, [], recent', kept⟩ Q) :
    Runs (handler R) ((PageProg.unpinPage page true).bind fun _ => p)
      ⟨mem, created, header, pins, recent, kept⟩ Q := by
  refine runs_release hp hmem fun pins' hp' => ?_
  obtain rfl : pins' = [] := List.map_eq_nil_iff.mp (List.perm_nil.mp hp')
  exact h _

omit [BoundedOrder K] [DecidableEq V] [Inhabited K] [Inhabited V] in
/-- A flush is over. -/
theorem Flushing.atRest {w : PageWorld (BeNode K V) Header}
    (hw : Flushing W R N A T C header kept H [] [] w) : AtRest R N A T C header kept w := by
  obtain ⟨⟨F, pg, hK, -, -, hF, -⟩, hp, he, hk⟩ := hw
  obtain rfl : F = noFlight := funext fun id => by
    by_contra hne
    obtain ⟨e, he, -⟩ := hF id hne
    simp at he
  refine ⟨⟨H, pg, hK⟩, List.map_eq_nil_iff.mp (List.perm_nil.mp hp), by rw [he], by rw [he], ?_, ?_⟩
  · rw [he]
    exact id
  · rw [hk]
    exact id

variable (hlim : R.limit = none)
include hlim

omit [DecidableEq V] in
/-- The messages that were removed from a node below the root node are flushed. -/
theorem flush_target (hW : W.Of R O) (hN : 3 ≤ N.LEAF_N)
    {queue : List (PageId × MessageMap K V)}
    (hK : Keeps R.ids N A T C mem F header created (g + 2) pg)
    (hE : ∀ e ∈ queue, Entry N mem F (g + 2) pg g e) (hnd : (queue.map Prod.fst).Nodup)
    (hF : ∀ id, F id ≠ [] → id ∈ queue.map Prod.fst) (hwaits : W.Waits mem F)
    (hopen : ∀ k, pg (g + 1) k ∈ queue.map Prod.fst → W.Open N mem created pg k)
    (hp : PinsAre pins (queue.map Prod.fst)) :
    Runs (handler R) ((Prog.iter (traverseQueue N O) queue).bind fun _ => .ret true)
      ⟨mem, created, header, pins, recent, kept⟩ fun b w' => b = true ∧ AtRest R N A T C header kept w' := by
  have hw : Flushing W R N A T C header kept (g + 2) (List.replicate queue.length g) queue
      ⟨mem, created, header, pins, recent, kept⟩ := by
    refine ⟨⟨F, pg, hK, entries_replicate hE, ?_, fun id hid => ?_, hwaits, fun e he k h hh hk => ?_⟩, hp, rfl, rfl⟩
    · have hne : queue.Pairwise fun a b => a.1 ≠ b.1 := List.pairwise_map.mp hnd
      exact hne.imp_of_mem fun ha hb hab =>
        apart_of_level hK.inv.routed (by omega) (hE _ ha).page (hE _ hb).page hab
    · obtain ⟨e, he, h⟩ := List.mem_map.mp (hF id hid)
      exact ⟨e, he, h⟩
    · obtain ⟨k', hk'⟩ := (hE e he).page
      obtain rfl := hK.inv.routed.level _ _ _ _ hh (hE e he).lt.le (hk.trans hk'.symm)
      exact hopen k (hk ▸ List.mem_map_of_mem he)
  exact runs_bind ((traverseQueue_spec hlim hW hN hw).mono fun _ w' h => runs_ret ⟨rfl, h.atRest⟩)

omit [DecidableEq V] in
/-- The halves of a node below the root node go to the queue, with the messages for them. -/
theorem flush_halves (hW : W.Of R O) (hN : 3 ≤ N.LEAF_N) (L : Leftover K V) {r : PageId}
    {m : BeInnerNode K V} {map : MessageMap K V}
    (hK : Keeps R.ids N A T C mem F header created (g + 2) pg) (hs : Sorted m.pivots m.size)
    (h2 : 2 ≤ m.size) (hle : m.size ≤ N.INNER_N) (hmap : MapOk N m.pivots m.size map)
    (hl : mem page = some (.inner m.leftHalf)) (hr : mem r = some (.inner (m.rightHalf L)))
    (hF : F = Function.update (Function.update noFlight r (splitMap ((m.size - 1) / 2) map).2.messages) page
      (splitMap ((m.size - 1) / 2) map).1.messages)
    (hpages : (∃ k, pg (g + 1) k = page) ∧ ∃ k, pg (g + 1) k = r) (hne : page ≠ r) (hwaits : W.Waits mem F)
    (hopen : ∀ k, pg (g + 1) k = page ∨ pg (g + 1) k = r → W.Open N mem created pg k)
    (hp : PinsAre pins [page, r]) :
    Runs (handler R)
      ((enqueue page (splitMap ((m.size - 1) / 2) map).1 []).bind fun queue =>
        (enqueue r (splitMap ((m.size - 1) / 2) map).2 queue).bind fun queue =>
          (Prog.iter (traverseQueue N O) queue).bind fun _ => .ret true)
      ⟨mem, created, header, pins, recent, kept⟩ fun b w' => b = true ∧ AtRest R N A T C header kept w' := by
  have hFl : F page = (splitMap ((m.size - 1) / 2) map).1.messages := by rw [hF, Function.update_self]
  have hFr : F r = (splitMap ((m.size - 1) / 2) map).2.messages := by
    rw [hF, Function.update_of_ne hne.symm, Function.update_self]
  have hE := entries_of_halves L hs h2 hle hmap (by omega : g + 1 < g + 2) hl hr hFl hFr hpages.1 hpages.2
  refine runs_enqueue hp (by rw [hl]; rfl) fun pins₁ recent₁ hp₁ => ?_
  refine runs_enqueue (hp₁.perm List.perm_append_comm) (by rw [hr]; rfl) fun pins₂ recent₂ hp₂ => ?_
  refine flush_target hlim hW hN hK hE ?_ (fun id hid => ?_) hwaits (fun k hk => hopen k ?_) ?_
  · rw [List.map_append]
    have hnd : [page, r].Nodup := by simp [hne]
    exact hnd.sublist (enqueued_sublist.append enqueued_sublist)
  · rw [List.map_append, List.mem_append]
    by_cases h₁ : id = page
    · subst h₁
      exact .inl (mem_map_enqueued hFl hid)
    by_cases h₂ : id = r
    · subst h₂
      exact .inr (mem_map_enqueued hFr hid)
    rw [hF, Function.update_of_ne h₁, Function.update_of_ne h₂] at hid
    exact absurd rfl hid
  · rw [List.map_append, List.mem_append] at hk
    exact hk.imp (fun h => List.mem_singleton.mp (enqueued_sublist.subset h)) fun h =>
      List.mem_singleton.mp (enqueued_sublist.subset h)
  · rw [List.map_append]
    exact hp₂.perm List.perm_append_comm

omit [DecidableEq V] in
/-- An inner target takes the message, or another attempt is needed.  When it flushes, the leaves are to be vacant
below it. -/
theorem handleInnerTarget_spec (hN : 3 ≤ N.LEAF_N)
    (hK : Keeps R.ids N A T C mem noFlight header created (g + 2) pg)
    (hT : A → Newest T u T') (hu : u.type ≠ .INVALID)
    (hroot : mem header.rootID = some (.root root)) (hroom : root.size < N.ROOT_N)
    (hpage : pg (g + 1) u.key = page) (hn : mem page = some (.inner n))
    (hcalm : R.asserts = true → N.INNER_B_N ≤ n.upserts.size → (∀ x ∈ n.upserts.toList, x.key ≠ u.key) →
      Watch.VacantBelow N (fun i => O.memory (R.ids i)) mem created pg (g + 1) page [u])
      (exclusiveMode splitRoot : Bool)
    (hp : PinsAre pins (page :: if exclusiveMode then [header.rootID] else []))
    (hr : ∀ s, (header.rootID, s) ∈ pins → splitRoot = true ∨ mem header.rootID = s)
    (hq : exclusiveMode = false → ∀ s, (page, s) ∈ pins → mem page = s) :
    Runs (handler R) (handleInnerTarget N O u exclusiveMode header.rootID
        (lowerBound root.pivots root.size u.key) splitRoot page n)
      ⟨mem, created, header, pins, recent, kept⟩ fun b w' =>
        b = false ∧ exclusiveMode = false ∧ GivenUp mem created header kept w' ∨
        b = true ∧ AtRest R N A T' (Function.update C u.key (u.effect (C u.key))) header kept w' := by
  have hok : InnerNodeOk N n :=
    (hK.inv.nodes (g + 1) (by omega) u.key (.inner n) (by rw [hpage, hn])).2
  obtain ⟨root', hroot', hrok, -⟩ := hK.inv.root_page u.key
  obtain rfl : root' = root := by simpa using hroot'.symm.trans hroot
  have htop : pg (g + 2) u.key = header.rootID := hK.inv.routed.top u.key
  have hne : page ≠ header.rootID := by
    rw [← hpage, ← htop]
    exact hK.inv.routed.page_ne (by omega) le_rfl (by omega)
  have hsome : (mem header.rootID).isSome := by rw [hroot]; rfl
  have hup : KeysSorted Upsert.key [u] := List.pairwise_singleton _ _
  subst hpage
  simp only [handleInnerTarget, Prog.bind_def, Prog.pure_def]
  split
  next hsame =>
    -- squash the two upserts
    refine runs_releaseRoot hsome hp hr fun pins' recent' hp' => ?_
    refine runs_write (hp'.pinned List.mem_cons_self) ?_
    refine runs_release_last (by simp) hp' fun recent'' => runs_ret (.inr ⟨rfl, ⟨g + 2, pg, ?_⟩, rfl, rfl, rfl, id, id⟩)
    exact hK.post_buffer hT hu hn rfl (BufferSet.squash hok.upserts hsame.1 hsame.2) rfl hok.upserts_le
      hok.sorted hok.distinct
  next hsame =>
  split
  next hspace =>
    -- insert the message
    refine runs_releaseRoot hsome hp hr fun pins' recent' hp' => ?_
    refine runs_write (hp'.pinned List.mem_cons_self) ?_
    refine runs_release_last (by simp) hp' fun recent'' => runs_ret (.inr ⟨rfl, ⟨g + 2, pg, ?_⟩, rfl, rfl, rfl, id, id⟩)
    exact hK.post_buffer hT hu hn rfl (BufferSet.insert hok.upserts hsame) rfl hspace hok.sorted hok.distinct
  next hspace =>
  have hneed : n.neededSlots N [u] = 1 := by
    have := hok.upserts_le
    rw [BeInnerNode.neededSlots, List.length_singleton]
    omega
  have hmax : n.neededSlots N [u] ≤ N.MAX_FLUSH_SIZE := by
    rw [hneed, NodeSizes.MAX_FLUSH_SIZE]
    omega
  have hR := removeMessages_spec O hok.upserts hup (by simp) hmax
  have hK₁ := hK.post_removed hT hu hn hok hR
  -- the buffer is full, so the leaves below are vacant for all INSERTs
  set W := Watch.below (R.asserts = true) N (fun i => O.memory (R.ids i)) mem created pg (g + 1) (pg (g + 1) u.key)
    with hWdef
  have hW : W.Of R O := ⟨id, fun _ => rfl⟩
  have hvacant : R.asserts = true → Watch.VacantBelow N (fun i => O.memory (R.ids i)) mem created pg (g + 1)
      (pg (g + 1) u.key) [u] := fun hon => hcalm hon (by omega) (BufferSet.misses hok.upserts hsame)
  have hwaits : W.Waits (Function.update mem (pg (g + 1) u.key) (some (.inner (n.removeMessages N O [u]
      N.MAX_FLUSH_SIZE).1))) (Function.update noFlight (pg (g + 1) u.key) (n.removeMessages N O [u]
      N.MAX_FLUSH_SIZE).2.messages) := by
    refine (Watch.below_waits hvacant).update ?_ fun id hid x hx => ?_
    · rw [Function.update_self]
      refine (Watch.Admits.merge ?_ (Watch.below_admits hvacant)).mono fun x hx => hR.perm.mem_iff.mp hx
      have h := Watch.below_waits hvacant (pg (g + 1) u.key)
      rwa [waitingAt_inner hn] at h
    · rwa [Function.update_of_ne hid] at hx
  have hleaf : ∀ k, pg 0 k ≠ pg (g + 1) u.key := fun k e => by
    have h := hK.inv.routed.level _ _ _ _ (Nat.zero_le _) (by omega) e
    omega
  have hok' := InnerState.removed_ok hok hR
  have hfew := hR.few
  have hmapne := hR.nonempty (by omega)
  rw [hneed] at hfew
  split
  next hfull =>
    cases exclusiveMode with
    | false =>
      refine runs_unpin_one hp (by rw [hn]; rfl) (fun s hs => .inr (hq rfl s hs)) fun pins' hp' _ => ?_
      obtain rfl : pins' = [] := List.map_eq_nil_iff.mp (List.perm_nil.mp hp')
      exact runs_ret (.inl ⟨rfl, rfl, _, rfl⟩)
    | true =>
      have hfresh : ∀ h ≤ g + 2, ∀ k, pg h k ≠ R.ids created := fun h hh k =>
        hK.inv.fresh_page R.ids_inj le_rfl hh k
      have hqr : pg (g + 1) u.key ≠ R.ids created := hfresh (g + 1) (by omega) u.key
      have hrc : header.rootID ≠ R.ids created := htop ▸ hfresh (g + 2) le_rfl u.key
      obtain ⟨hfreshm, -⟩ := hK.inv.fresh_mem R.ids_inj le_rfl
      have hpq := hp.pinned List.mem_cons_self
      refine runs_removeMessages hok.upserts hup (by simp) hmax hn hpq ?_
      set m' := (n.removeMessages N O [u] N.MAX_FLUSH_SIZE).1 with hm'
      set map := (n.removeMessages N O [u] N.MAX_FLUSH_SIZE).2 with hmap
      refine runs_check (fun _ => decide_eq_true (le_antisymm hfew (List.length_pos_iff.mpr hmapne))) ?_
      have hsize := hR.size
      have hle := hok'.size_le
      have h3 := N.inner_ge
      have hmapOk : MapOk N m'.pivots m'.size (O.traverse map) := by
        refine MapOk.perm ⟨hR.nodup, fun e he => ?_⟩ (O.traverse_perm map)
        rw [hR.pivots, hR.size]
        exact hR.vectors e he
      obtain ⟨-, -, hperm, hlow, hhigh⟩ := splitMap_ok hmapOk hok'.sorted (s := (m'.size - 1) / 2) (by omega)
        (p := (O.memory (R.ids created)).pivots)
      have hsplit := hK₁.inv.split_target_inner (O.memory (R.ids created)) R.ids_inj root'
        (by rw [Function.update_of_ne hne.symm, hroot]) hrok hroom (Function.update_self _ _ _) (by omega)
        (hperm.trans (by
          rw [Function.update_self]
          exact (O.traverse_perm map).flatMap_right _)) hlow hhigh
      refine runs_splitInnerNode hpq (by rw [Function.update_of_ne hqr.symm, hfreshm])
        (hp.ne (by simp [hqr.symm, hrc.symm])) hlim (Function.update_self _ _ _) (by omega) hok'.upserts ?_
      have hp₁ := (hp.cons (R.ids created) none).perm
        ((List.Perm.cons _ (List.Perm.swap _ _ _)).trans (List.Perm.swap _ _ _))
      refine runs_asRoot (n := root') ?_ (.inl (hp₁.pinned List.mem_cons_self))
        (runs_write (hp₁.pinned List.mem_cons_self) (runs_release hp₁ (by simp) fun pins₂ hp₂ => ?_))
      · rw [Function.update_of_ne hne.symm, Function.update_of_ne hrc, Function.update_of_ne hne.symm, hroot]
      refine runs_asInner (n := m'.leftHalf) ?_ (.inl (hp₂.pinned (by simp))) ?_
      · rw [Function.update_of_ne hne, Function.update_self]
      have hasserts := splitMapAsserts hmapOk hok'.sorted (s := m'.leftHalf.size)
        (by rw [BeInnerNode.leftHalf]; dsimp only; omega)
        fun e => hmapne (List.perm_nil.mp (e ▸ O.traverse_perm map).symm)
      refine runs_check (fun _ => hasserts.1) (runs_check (fun _ => hasserts.2) ?_)
      refine (flush_halves hlim hW hN (O.memory (R.ids created)) (hK₁.split R.ids_inj hsplit) hok'.sorted
        (by omega) hle hmapOk ?_ ?_
        ?_ hsplit.pages hqr (hwaits.split hsplit) (fun k hk => ?_)
        (hp₂.perm (List.Perm.swap _ _ _))).mono fun b w' h => .inr h
      · rw [Function.update_of_ne hne, Function.update_self]
      · rw [Function.update_of_ne hrc.symm, Function.update_of_ne hqr.symm, Function.update_self]
      · rw [Function.update_comm hqr, Function.update_idem]
      · -- the leaves are where they were
        have hk' : pg (g + 1) k = pg (g + 1) u.key := by
          rcases NodeSplit.page_cases R.ids created pg (g + 1) u.key m'.middleKey (g + 1) k with ⟨-, -, h, -⟩ | ⟨h, -⟩
          · exact h
          · exact (h ▸ hk).resolve_right (hfresh (g + 1) (by omega) k)
        have hpg : Routed.splitPg pg (g + 1) (pg (g + 1) u.key) (R.ids created) m'.middleKey 0 k = pg 0 k := by
          rcases NodeSplit.page_cases R.ids created pg (g + 1) u.key m'.middleKey 0 k with ⟨-, h, -⟩ | ⟨h, -⟩
          · exact absurd h (by omega)
          · exact h
        have hroot0 : pg 0 k ≠ header.rootID := fun e => by
          have h := hK.inv.routed.level _ _ _ _ (Nat.zero_le _) le_rfl (e.trans htop.symm)
          omega
        refine (Watch.below_open hk').congr ?_ (Nat.le_succ _)
        rw [hpg, Function.update_of_ne hroot0, Function.update_of_ne (hleaf k),
          Function.update_of_ne (hfresh 0 (Nat.zero_le _) k), Function.update_of_ne (hleaf k)]
  next hroom' =>
    refine runs_releaseRoot hsome hp hr fun pins' recent' hp' => ?_
    refine runs_removeMessages hok.upserts hup (by simp) hmax hn (hp'.pinned List.mem_cons_self) ?_
    refine (flush_target hlim hW hN hK₁ (fun e he => ?_) (by simp) (fun id hid => ?_) hwaits (fun k hk => ?_) hp').mono
      fun b w' h => .inr h
    · obtain rfl := List.mem_singleton.mp he
      refine ⟨by omega, ⟨u.key, rfl⟩, ⟨_, Function.update_self _ _ _, ⟨hR.nodup, fun e he => ?_⟩, ?_⟩, hmapne,
        by rw [Function.update_self]⟩
      · rw [hR.pivots, hR.size]
        exact hR.vectors e he
      · rw [hR.size]
        dsimp only
        omega
    · by_cases hid' : id = pg (g + 1) u.key
      · simp [hid']
      · rw [Function.update_of_ne hid'] at hid
        exact absurd rfl hid
    · exact (Watch.below_open (List.mem_singleton.mp hk)).congr (Function.update_of_ne (hleaf k) _ _) le_rfl

end Routine

end BEpsilon.BeTree
