import BEpsilon.BeTree.Latching

/-!
# BEpsilon.BeTree.RootLatching — the latches at the root of the Bε-tree

What the calls of the Bε-tree owe to other threads at the root page: it is changed below an exclusive latch
only, and the flag is cleared before the latch is released.
-/

namespace BEpsilon.BeTree

open Slots Fanout

variable {K V α : Type} [LinearOrder K] [BoundedOrder K] [DecidableEq V] [Add V] [Inhabited K] [Inhabited V]
variable {N : NodeSizes} {O : Unspecified K V} {root page : PageId} {s : Sight (BeNode K V)} {e : Bool}
  {x : Option (BeNode K V)} {Q : α → Sight (BeNode K V) → Prop}

section SplitRoot

variable {n : BeRootNode K}

/-- Between two rounds of `splitRootNode` of the root node `n`. -/
structure Splits (root : PageId) (n : BeRootNode K) (i : ℕ) (r : RootSplit K) (s : Sight (BeNode K V)) : Prop where
  settled : s.Settled layout root
  latched : s.held root = some (true, some (.root n))
  dividing : Dividing n.size i r
  size : r.newRootSize = r.midPivots.length
  size_le : r.newRootSize ≤ i ∧ r.newRootSize ≤ n.size
  children : ∀ j ≤ n.size, r.rootNode.children j ≠ root
  owned : Owned root (r.newChildren : Multiset PageId) s

omit [BoundedOrder K] [DecidableEq V] [Add V] [LinearOrder K] [Inhabited K] [Inhabited V] in
/-- Every round latches one new page. -/
theorem minds_splitRootChild {i : ℕ} {r : RootSplit K} (hs : Splits root n i r s) :
    Minds layout root (splitRootChild N O (i, r)) s fun res s' =>
      Sum.elim (fun p => Splits root n p.1 p.2 s') (fun r' => Splits root n i r' s' ∧ n.size ≤ i) res := by
  have h3 := N.inner_ge
  have hsize : r.rootNode.size = n.size := hs.dividing.root_size
  simp only [splitRootChild, Prog.bind_def, Prog.pure_def]
  split
  next hi =>
    rw [hsize] at hi
    refine minds_createPage hs.settled fun child hchild => minds_pinFixed hchild hs.settled fun hnone d => ?_
    refine minds_write Sight.hold_self (fun h => absurd h hchild) (refers_inner ?_) ?_
    · intro j hj
      dsimp only at hj ⊢
      rw [hsize] at hj ⊢
      rw [moveTo_zero (by omega)]
      exact hs.children _ (by omega)
    rw [Sight.hold_hold]
    have hlatched : ∀ d, (s.put child d).held root = some (true, some (.root n)) :=
      fun d => (Sight.put_ne (Ne.symm hchild)).trans hs.latched
    have howned : ∀ d, Owned root ((r.newChildren ++ [child] : List PageId) : Multiset PageId) (s.put child d) := by
      intro d
      have h := hs.owned.pin (d := d) hnone hchild
      rwa [← Multiset.coe_add, Multiset.coe_singleton, Multiset.add_comm, Multiset.singleton_add]
    have hchildren : ∀ j ≤ n.size, Function.update r.rootNode.children r.newRootSize child j ≠ root := by
      intro j hj
      by_cases e : j = r.newRootSize
      · rw [e, Function.update_self]
        exact hchild
      · rw [Function.update_of_ne e]
        exact hs.children j hj
    obtain ⟨hle, hle'⟩ := hs.size_le
    split
    next hlast =>
      have hlast := of_decide_eq_true hlast
      rw [hsize] at hlast
      refine always_ret ⟨hs.settled.put hchild, hlatched _, ⟨hsize, ?_, ?_⟩, hs.size, ⟨?_, hle'⟩, hchildren, howned _⟩
      · intro hlt
        omega
      · intro _
        simp [hs.dividing.more hi]
      · dsimp only
        omega
    next hlast =>
      have hlast := of_decide_eq_false (Bool.eq_false_of_not_eq_true hlast)
      rw [hsize] at hlast
      refine always_ret ⟨hs.settled.put hchild, hlatched _, ⟨hsize, ?_, ?_⟩, ?_, ⟨?_, ?_⟩, hchildren, howned _⟩
      · intro _
        simp [hs.dividing.more hi]
      · intro hge
        omega
      · simp [hs.size]
      · dsimp only
        omega
      · dsimp only
        omega
  next hi =>
    rw [hsize] at hi
    exact always_ret ⟨hs, by omega⟩

omit [BoundedOrder K] [DecidableEq V] [Add V] [LinearOrder K] [Inhabited K] [Inhabited V] in
/-- The new children are latched exclusively, one more than there are pivots between them. -/
theorem minds_splitRootNode {f : List PageId × List K → BeProg K V α} (hs : s.Settled layout root)
    (hroot : s.held root = some (true, some (.root n))) (hn : ∀ i ≤ n.size, n.children i ≠ root) (hpos : n.size ≠ 0)
    (h : ∀ (children : List PageId) (mids : List K) (m : BeRootNode K) s', s'.Settled layout root →
      s'.held root = some (true, some (.root m)) →
      m.size = mids.length → children.length = mids.length + 1 → Owned root (children : Multiset PageId) s' →
      Minds layout root (f (children, mids)) s' Q) :
    Minds layout root ((splitRootNode N O root).bind f) s Q := by
  simp only [splitRootNode, Prog.bind_def, Prog.pure_def, Prog.bind_assoc]
  refine minds_asRoot hs.calm fun n' _ hread => ?_
  obtain rfl : n = n' := by simpa using hread true _ hroot (.inl rfl)
  have hstart : Splits root n 0 { rootNode := n } s :=
    ⟨hs, hroot, ⟨rfl, fun _ => rfl, fun h => absurd (Nat.le_zero.mp h) hpos⟩, rfl, ⟨le_rfl, Nat.zero_le _⟩, hn,
      Multiset.nodup_zero, fun p hp => absurd hp (Multiset.notMem_zero p)⟩
  refine always_loop (fun p s => Splits root n p.1 p.2 s) ?_ hstart
  rintro ⟨i, r⟩ s hs
  refine (minds_splitRootChild hs).mono ?_
  rintro (p | r') s' h'
  · exact h'
  · obtain ⟨hs', hi⟩ := h'
    refine minds_write hs'.latched (fun _ => ⟨rfl, by simp [layout]⟩) (refers_root ?_) ?_
    · intro j hj
      have hj : j ≤ r'.newRootSize := hj
      exact hs'.children j (hj.trans hs'.size_le.2)
    · have hset := hs'.settled.rewrite (d := .root { r'.rootNode with size := r'.newRootSize })
        hs'.latched (Sight.reads_of_held hs'.latched) rfl
      exact h _ _ _ _ hset Sight.hold_self hs'.size (hs'.dividing.last hi) hs'.owned.put

/-- The child of the root page that receives the message is latched exclusively. -/
structure Targets (root target : PageId) (i : ℕ) (e : Bool) (s : Sight (BeNode K V)) : Prop where
  settled : s.Settled layout root
  ne_root : target ≠ root
  latched : ∃ d, s.held target = some (true, d)
  above : ∃ m : BeRootNode K, s.held root = some (e, some (.root m)) ∧ i ≤ m.size

omit [BoundedOrder K] [DecidableEq V] [Add V] [Inhabited K] [Inhabited V] [LinearOrder K] in
/-- The other new children are released. -/
theorem minds_releaseAll {pages : List PageId} {target : PageId} {i : ℕ} {f : Unit → BeProg K V α}
    (hs : s.Settled layout root) (howned : Owned root (target ::ₘ (pages : Multiset PageId)) s)
    {m : BeRootNode K} (hroot : s.held root = some (e, some (.root m))) (hi : i ≤ m.size)
    (h : ∀ s', Targets root target i e s' → Minds layout root (f ()) s' Q) :
    Minds layout root
      ((Prog.forFold (fun _ (child : PageId) => PageProg.unpinPage child true) pages ()).bind f) s Q := by
  refine always_bind ((always_forFold (fun (pages : List PageId) _ s => s.Settled layout root ∧
    Owned root (target ::ₘ (pages : Multiset PageId)) s ∧ s.held root = some (e, some (.root m))) ?_
    ⟨hs, howned, hroot⟩).mono ?_)
  · rintro page pages - s ⟨hs, howned, hroot⟩
    rw [← Multiset.cons_coe, Multiset.cons_swap] at howned
    have hne := (howned.held page (Multiset.mem_cons_self _ _)).1
    exact minds_unpinPage_last hs ⟨hs.drop, howned.drop, (Sight.drop_held_ne (Ne.symm hne)).trans hroot⟩
  · rintro - s ⟨hs, howned, hroot⟩
    obtain ⟨hne, d, hd⟩ := howned.held target (Multiset.mem_cons_self _ _)
    exact h s ⟨hs, hne, ⟨some d, hd⟩, m, hroot, hi⟩

omit [BoundedOrder K] [DecidableEq V] [Add V] [Inhabited V] in
/-- A full root node is split only below an exclusive latch. -/
theorem minds_pinTarget {u : Upsert K V} {f : PageId × ℕ × Bool → BeProg K V α} (hpos : 0 < N.ROOT_N)
    (hs : s.Settled layout root) (hroot : s.held root = some (e, some (.root n)))
    (hn : ∀ i ≤ n.size, n.children i ≠ root) (hfull : n.size = N.ROOT_N → e = true)
    (h : ∀ target i split s', Targets root target i e s' → Minds layout root (f (target, i, split)) s' Q) :
    Minds layout root ((pinTarget N O u root n).bind f) s Q := by
  simp only [pinTarget, Prog.bind_def, Prog.pure_def, Prog.ite_bind]
  split_ifs with hsize
  · obtain rfl := hfull hsize
    simp only [Prog.bind_assoc, Prog.ret_bind]
    refine minds_splitRootNode hs hroot hn (by omega) fun children mids m s' hs' hroot' hm hlen howned => ?_
    dsimp only
    generalize hi : lowerBound (fun i => mids.getD i default) mids.length u.key = i
    have hle : i ≤ mids.length := by
      rw [← hi]
      exact lowerBound_le _ _ _
    have hlt : i < children.length := by omega
    have hcut : (children : Multiset PageId) =
        children.getD i 0 ::ₘ (children.eraseIdx i : Multiset PageId) := by
      rw [List.getD_eq_getElem?_getD, List.getElem?_eq_getElem hlt, Option.getD_some, Multiset.cons_coe,
        Multiset.coe_eq_coe]
      exact (List.getElem_cons_eraseIdx_perm hlt).symm
    rw [hcut] at howned
    exact minds_releaseAll hs' howned hroot' (by omega) fun s'' h'' => h _ i true s'' h''
  · simp only [Prog.bind_assoc, Prog.ret_bind]
    have hle := lowerBound_le n.pivots n.size u.key
    have hne := hn _ hle
    refine minds_pinFixed hne hs fun hnone d => h _ _ _ _ ⟨hs.hold hne, hne, ⟨d, Sight.hold_self⟩, n, ?_, hle⟩
    rw [Sight.hold_ne (Ne.symm hne)]
    exact hroot

end SplitRoot

section Target

variable {exclusiveMode : Bool} {target : PageId} {i : ℕ}

/-- At the target with data `d`: the root page is still latched in exclusive mode, and has been released in
shared mode. -/
structure Above (root : PageId) (exclusiveMode : Bool) (target : PageId) (i : ℕ) (d : BeNode K V)
    (s : Sight (BeNode K V)) : Prop where
  settled : s.Settled layout root
  ne_root : target ≠ root
  latched : s.held target = some (true, some d)
  above : exclusiveMode = true → ∃ m : BeRootNode K, s.held root = some (true, some (.root m)) ∧ i ≤ m.size
  away : exclusiveMode = false → s.held root = none

omit [BoundedOrder K] [Inhabited K] [Inhabited V] in
theorem minds_performLeafUpsert {u : Upsert K V} (hs : s.Below root) (hne : page ≠ root)
    (hheld : s.held page = some (e, x)) :
    Minds layout root (performLeafUpsert u page) s fun _ s' => s'.Below root := by
  have hend : ∀ dirty, Minds layout root ((PageProg.unpinPage page dirty).bind fun _ => (.ret true : BeProg K V Bool)) s
      fun _ s' => s'.Below root := fun dirty => minds_unpinPage hs.settled (always_ret hs.drop)
  have hwrite : ∀ m : BeLeafNode K V, Minds layout root ((PageProg.write page (.leaf m)).bind fun _ =>
      (PageProg.unpinPage page true).bind fun _ => (.ret true : BeProg K V Bool)) s fun _ s' => s'.Below root :=
    fun m => minds_write hheld (fun h => absurd h hne) refers_leaf
      (minds_unpinPage (hs.hold hne).settled (always_ret (hs.hold hne).drop))
  simp only [performLeafUpsert, Prog.bind_def, Prog.pure_def]
  refine minds_asLeaf hs.settled.calm fun m _ => ?_
  cases u.type with
  | DELETE =>
    dsimp only
    split_ifs
    · exact hwrite _
    · exact hend _
  | UPDATE =>
    dsimp only
    split_ifs
    · exact hwrite _
    · exact hend _
  | INSERT =>
    dsimp only
    split_ifs
    · exact hwrite _
    · exact hend _
    · exact hwrite _
  | INVALID => exact always_ret hs

omit [DecidableEq V] [Add V] [Inhabited K] [Inhabited V] [LinearOrder K] [BoundedOrder K] in
/-- The page of the root node is released in exclusive mode. -/
theorem minds_releaseRoot {dirty : Bool} {d : BeNode K V} {f : Unit → BeProg K V α}
    (hs : Above root exclusiveMode target i d s)
    (h : ∀ s' : Sight (BeNode K V), s'.Below root → s'.held target = some (true, some d) →
      Minds layout root (f ()) s' Q) :
    Minds layout root (if exclusiveMode = true then (PageProg.unpinPage root dirty).bind f else f ()) s Q := by
  cases exclusiveMode with
  | false => exact h s ⟨hs.away rfl, hs.settled.due⟩ hs.latched
  | true =>
    refine minds_unpinPage hs.settled (h _ (Sight.below_drop hs.settled.due) ?_)
    rw [Sight.drop_held_ne hs.ne_root]
    exact hs.latched

omit [DecidableEq V] [Add V] [Inhabited K] [Inhabited V] [LinearOrder K] [BoundedOrder K] in
/-- The root node takes the pivot of a split child, and its page is released. -/
theorem minds_insertPivot {mid : K} {right : PageId} {m : BeRootNode K} {f : Unit → BeProg K V α}
    (hs : s.Settled layout root) (hroot : s.held root = some (true, some (.root m))) (hi : i ≤ m.size)
    (hright : right ≠ root)
    (h : ∀ s' : Sight (BeNode K V), s'.Below root → (∀ id, id ≠ root → s'.held id = s.held id) →
      Minds layout root (f ()) s' Q) :
    Minds layout root ((asRoot root).bind fun rootNode =>
      (PageProg.write root (.root (rootNode.insertPivot i mid right))).bind fun _ =>
        (PageProg.unpinPage root true).bind f) s Q := by
  refine minds_asRoot hs.calm fun m' hm hread => ?_
  obtain rfl : m = m' := by simpa using hread true _ hroot (.inl rfl)
  refine minds_write hroot (fun _ => ⟨rfl, by simp [layout]⟩) ?_ ?_
  · intro e' he'
    rcases (mem_childSet_insertPivot hi).mp he' with rfl | ⟨j, hj, rfl⟩
    · exact hright
    · exact hm j hj
  · refine minds_unpinPage (hs.rewrite hroot (Sight.reads_of_held hroot) rfl) (h _ (Sight.below_drop hs.due) ?_)
    intro id hid
    rw [Sight.drop_held_ne hid, Sight.hold_ne hid]

theorem minds_handleLeafTarget {u : Upsert K V} {splitRoot : Bool} {n : BeLeafNode K V}
    (hs : Above root exclusiveMode target i (.leaf n) s) :
    Minds layout root (handleLeafTarget N O u exclusiveMode root i splitRoot target n) s
      fun _ s' => s'.Below root := by
  simp only [handleLeafTarget, Prog.bind_def, Prog.pure_def]
  refine minds_check hs.settled.due ?_
  split
  · cases exclusiveMode with
    | false =>
      refine minds_unpinPage hs.settled (always_ret (Sight.Below.drop ⟨hs.away rfl, hs.settled.due⟩))
    | true =>
      obtain ⟨m, hroot, hi⟩ := hs.above rfl
      refine minds_medianKeyOf hs.settled.calm fun key => minds_splitLeafNode hs.settled hs.latched (fun _ => rfl) ?_
      intro right mid l r hright hnone hset
      have hne : target ≠ right := Sight.ne_of_held hs.latched hnone
      refine minds_insertPivot hset ?_ hi hright fun s' hs' hsame => ?_
      · rw [Sight.hold_ne (Ne.symm hs.ne_root), Sight.put_ne (Ne.symm hright)]
        exact hroot
      have htarget : s'.held target = some (true, some (.leaf l)) := by
        rw [hsame _ hs.ne_root, Sight.hold_self]
      have hhalf : s'.held right = some (true, some (.leaf r)) := by
        rw [hsame _ hright, Sight.hold_ne (Ne.symm hne), Sight.put_self]
      split_ifs
      · have htarget' : (s'.drop root right).held target = some (true, some (.leaf l)) :=
          (Sight.drop_held_ne hne).trans htarget
        exact minds_unpinPage hs'.settled (minds_performLeafUpsert hs'.drop hs.ne_root htarget')
      · have hhalf' : (s'.drop root target).held right = some (true, some (.leaf r)) :=
          (Sight.drop_held_ne (Ne.symm hne)).trans hhalf
        exact minds_unpinPage hs'.settled (minds_performLeafUpsert hs'.drop hright hhalf')
  · exact minds_releaseRoot hs fun s' hs' htarget => minds_performLeafUpsert hs' hs.ne_root htarget

omit [BoundedOrder K] [DecidableEq V] [Add V] [Inhabited K] [Inhabited V] [LinearOrder K] in
/-- One page in work, with an empty queue. -/
theorem queued_single {d : BeNode K V} (hs : s.Below root) (hne : page ≠ root)
    (hheld : s.held page = some (true, some d)) : Queued root [] {page} s := by
  refine ⟨hs, ⟨?_, ?_⟩, fun a ha => absurd ha List.not_mem_nil⟩
  · rw [pagesOf_nil, Multiset.zero_add]
    exact Multiset.nodup_singleton page
  · intro p hp
    rw [pagesOf_nil, Multiset.zero_add, Multiset.mem_singleton] at hp
    subst hp
    exact ⟨hne, d, hheld⟩

omit [BoundedOrder K] [DecidableEq V] [Add V] [Inhabited K] [Inhabited V] [LinearOrder K] in
/-- Two pages in work. -/
theorem queued_pair {right : PageId} {d r : BeNode K V} (hs : s.Below root) (hne : page ≠ root) (hright : right ≠ root)
    (hpr : page ≠ right) (hheld : s.held page = some (true, some d)) (hr : s.held right = some (true, some r)) :
    Queued root [] (page ::ₘ {right}) s := by
  refine ⟨hs, ⟨?_, ?_⟩, fun a ha => absurd ha List.not_mem_nil⟩
  · rw [pagesOf_nil, Multiset.zero_add, Multiset.nodup_cons]
    exact ⟨fun h => hpr (Multiset.mem_singleton.mp h), Multiset.nodup_singleton right⟩
  · intro p hp
    rw [pagesOf_nil, Multiset.zero_add, Multiset.mem_cons, Multiset.mem_singleton] at hp
    rcases hp with rfl | rfl
    · exact ⟨hne, d, hheld⟩
    · exact ⟨hright, r, hr⟩

omit [DecidableEq V] in
/-- The flush that ends a call. -/
theorem minds_flush {queue : List (PageId × MessageMap K V)} {b : Bool} (hs : Queued root queue 0 s) :
    Minds layout root ((Prog.iter (traverseQueue N O) queue).bind fun _ => (.ret b : BeProg K V Bool)) s
      fun _ s' => s'.Below root :=
  always_bind ((minds_iter_traverseQueue hs).mono fun _ _ h => always_ret h)

omit [DecidableEq V] in
theorem minds_handleInnerTarget {u : Upsert K V} {splitRoot : Bool} {n : BeInnerNode K V}
    (hs : Above root exclusiveMode target i (.inner n) s) (hn : ∀ i ≤ n.size, n.children i ≠ root) :
    Minds layout root (handleInnerTarget N O u exclusiveMode root i splitRoot target n) s
      fun _ s' => s'.Below root := by
  have hne := hs.ne_root
  -- the message goes to the buffer of the target
  have hwrite : ∀ b : UpsertBuffer K V, Minds layout root (if exclusiveMode = true then
      (PageProg.unpinPage root splitRoot).bind fun _ =>
        (PageProg.write target (.inner { n with upserts := b })).bind fun _ =>
          (PageProg.unpinPage target true).bind fun _ => (.ret true : BeProg K V Bool)
      else (PageProg.write target (.inner { n with upserts := b })).bind fun _ =>
        (PageProg.unpinPage target true).bind fun _ => (.ret true : BeProg K V Bool)) s fun _ s' => s'.Below root := by
    intro b
    refine minds_releaseRoot hs fun s' hs' htarget => ?_
    refine minds_write htarget (fun h => absurd h hne) (refers_inner hn) ?_
    exact minds_unpinPage (hs'.hold hne).settled (always_ret (hs'.hold hne).drop)
  simp only [handleInnerTarget, Prog.bind_def, Prog.pure_def]
  split
  · exact hwrite _
  split
  · exact hwrite _
  split
  next hfull =>
    cases exclusiveMode with
    | false =>
      refine minds_unpinPage hs.settled (always_ret (Sight.Below.drop ⟨hs.away rfl, hs.settled.due⟩))
    | true =>
      obtain ⟨m, hroot, hi⟩ := hs.above rfl
      have h3 := N.inner_ge
      refine minds_removeMessages hs.settled hne hs.latched fun n' map hsize hmap _ => ?_
      have hset := hs.settled.put (d := .inner n') hne
      refine minds_check hset.due (minds_splitInnerNode hset hne Sight.put_self (by omega) ?_)
      intro right mid l r hright hnone hsum
      have hpr : target ≠ right := Sight.ne_of_held Sight.put_self hnone
      refine minds_insertPivot ((hset.put hright).put hne) ?_ hi hright fun s₁ hs₁ hsame => ?_
      · rw [Sight.put_ne (Ne.symm hne), Sight.put_ne (Ne.symm hright), Sight.put_ne (Ne.symm hne)]
        exact hroot
      have hleft : s₁.held target = some (true, some (.inner l)) := by
        rw [hsame _ hne, Sight.put_self]
      have hhalf : s₁.held right = some (true, some (.inner r)) := by
        rw [hsame _ hright, Sight.put_ne (Ne.symm hpr), Sight.put_self]
      refine minds_asInner hs₁.settled.calm fun l' _ hread => ?_
      obtain rfl : l = l' := by simpa using hread true _ hleft (.inl rfl)
      refine minds_check hs₁.due (minds_check hs₁.due ?_)
      have hindex : ∀ x ∈ O.traverse map, x.1 ≤ n'.size := by
        intro x hx
        rw [hsize]
        exact hmap x ((O.traverse_perm map).mem_iff.mp hx)
      obtain ⟨hl, hr⟩ := @splitMap_index_le _ _ _ l.size _ hindex
      refine minds_enqueue (queued_pair hs₁ hne hright hpr hleft hhalf) hleft hl fun queue₁ s₂ hq₁ hkept => ?_
      have hhalf₂ : s₂.held right = some (true, some (.inner r)) := by
        rw [hkept _ (Multiset.mem_singleton_self right)]
        exact hhalf
      refine minds_enqueue hq₁ hhalf₂ ?_ fun queue₂ s₃ hq₂ _ => minds_flush hq₂
      intro x hx
      have := hr x hx
      omega
  next =>
    refine minds_releaseRoot hs fun s' hs' htarget => ?_
    refine minds_removeMessages hs'.settled hne htarget fun n' map hsize hmap _ => minds_flush ?_
    have hq : Queued root [] {target} (s'.put target (.inner n')) := queued_single (hs'.put hne) hne Sight.put_self
    refine Queued.push hq Sight.put_self ?_
    intro x hx
    rw [hsize]
    exact hmap x hx

/-- At the target of a message. -/
theorem minds_target {u : Upsert K V} {splitRoot : Bool} (hs : s.Settled layout root) (hne : target ≠ root)
    {o : Option (BeNode K V)} (hheld : s.held target = some (true, o))
    (habove : exclusiveMode = true → ∃ m : BeRootNode K, s.held root = some (true, some (.root m)) ∧ i ≤ m.size)
    (haway : exclusiveMode = false → s.held root = none) :
    Minds layout root ((PageProg.read target).bind fun d => match d with
      | .leaf leafNode => handleLeafTarget N O u exclusiveMode root i splitRoot target leafNode
      | .inner innerNode => handleInnerTarget N O u exclusiveMode root i splitRoot target innerNode
      | .root _ => (PageProg.badCast : BeProg K V Bool)) s fun _ s' => s'.Below root := by
  refine minds_read fun d hrefers hd => ?_
  obtain rfl := hd true o hheld (.inl rfl)
  cases d with
  | leaf n => exact minds_handleLeafTarget ⟨hs, hne, hheld, habove, haway⟩
  | inner n =>
    exact minds_handleInnerTarget ⟨hs, hne, hheld, habove, haway⟩ fun j hj => hrefers _ ⟨j, hj, rfl⟩
  | root n => exact always_call hs.calm fun b => b.elim

/-- Below a root node. -/
theorem minds_handleRootRootUpsert {u : Upsert K V} (hpos : 0 < N.ROOT_N) (hs : s.Settled layout root)
    (hheld : s.held root = some (e, x)) (hmode : exclusiveMode = true → e = true) :
    Minds layout root (handleRootRootUpsert N O u root exclusiveMode) s fun _ s' => s'.Below root := by
  simp only [handleRootRootUpsert, Prog.bind_def, Prog.pure_def]
  refine minds_getHeader_held hs.calm hheld fun header _ _ => minds_check hs.due ?_
  refine minds_asRoot hs.calm fun n hn hread => minds_check hs.due ?_
  obtain rfl := hread e x hheld (.inr rfl)
  split
  · exact minds_unpinPage hs (always_ret (Sight.below_drop hs.due))
  next hretry =>
    have hfull : n.size = N.ROOT_N → e = true := by
      intro hfull
      cases exclusiveMode with
      | true => exact hmode rfl
      | false => exact absurd ⟨hfull, rfl⟩ hretry
    refine minds_pinTarget hpos hs hheld hn hfull fun target i split s' ht => ?_
    obtain ⟨o, ho⟩ := ht.latched
    cases exclusiveMode with
    | false =>
      rw [if_pos (by rfl)]
      have haway := @Sight.below_drop _ root _ ht.settled.due
      have ho' : (s'.drop root root).held target = some (true, o) := (Sight.drop_held_ne ht.ne_root).trans ho
      exact minds_unpinPage ht.settled (minds_target haway.settled ht.ne_root ho' (fun h => absurd h (by simp))
        fun _ => haway.away)
    | true =>
      obtain rfl := hmode rfl
      rw [if_neg (by simp)]
      exact minds_target ht.settled ht.ne_root ho (fun _ => ht.above) fun h => absurd h (by simp)

end Target

section RootLeaf

omit [BoundedOrder K] [DecidableEq V] [Add V] [Inhabited K] [Inhabited V] [LinearOrder K] in
theorem minds_performRootInsert {u : Upsert K V} {keyIndex : ℕ} (hs : s.Settled layout root)
    (hheld : s.held page = some (e, x)) (hmode : page = root → e = true) (haway : page ≠ root → s.held root = none) :
    Minds layout root (performRootInsert u page keyIndex) s fun _ s' => s'.Below root := by
  simp only [performRootInsert, Prog.bind_def]
  refine minds_asLeaf hs.calm fun n hn => ?_
  refine minds_write hheld (fun h => ⟨hmode h, by simp [layout]⟩) refers_leaf ?_
  refine minds_unpinPage_last (hs.rewrite hheld hn rfl) ?_
  by_cases hp : page = root
  · subst hp
    exact Sight.below_drop hs.due
  · refine Sight.Below.drop ⟨?_, hs.due⟩
    rw [Sight.hold_ne (Ne.symm hp)]
    exact haway hp

theorem minds_handleRootLeafUpsert {u : Upsert K V} (hs : s.Settled layout root)
    (hheld : s.held root = some (true, x)) (hu : u.type ≠ .INVALID) :
    Minds layout root (handleRootLeafUpsert N O u root) s fun _ s' => s'.Below root := by
  simp only [handleRootLeafUpsert, Prog.bind_def, Prog.pure_def]
  refine minds_getHeader_held hs.calm hheld fun header _ _ => minds_check hs.due ?_
  refine minds_asLeaf hs.calm fun n hn => ?_
  obtain rfl := hn true x hheld (.inl rfl)
  have hend : ∀ dirty, Minds layout root (PageProg.unpinPage root dirty : BeProg K V Unit) s
      fun _ s' => s'.Below root := fun dirty => minds_unpinPage_last hs (Sight.below_drop hs.due)
  have hwrite : ∀ m : BeLeafNode K V, Minds layout root ((PageProg.write root (.leaf m)).bind fun _ =>
      (PageProg.unpinPage root true : BeProg K V Unit)) s fun _ s' => s'.Below root :=
    fun m => minds_write hheld (fun _ => ⟨rfl, by simp [layout]⟩) refers_leaf
      (minds_unpinPage_last (hs.rewrite hheld hn rfl) (Sight.below_drop hs.due))
  cases htype : u.type with
  | DELETE =>
    dsimp only
    split_ifs
    · exact hwrite _
    · exact hend _
  | UPDATE =>
    dsimp only
    split_ifs
    · exact hwrite _
    · exact hend _
  | INSERT =>
    dsimp only
    split_ifs
    · exact hwrite _
    · exact hend _
    · refine minds_check hs.due (minds_medianKeyOf hs.calm fun key => ?_)
      refine minds_splitLeafNode hs hheld (fun _ => rfl) fun right mid l r hright hnone hset => ?_
      refine minds_createRoot hset Sight.hold_self hright fun newRoot s' hnew hnone' hs' hleft hsame => ?_
      have hne : newRoot ≠ right := by
        rintro rfl
        rw [Sight.hold_ne hright, Sight.put_self] at hnone'
        cases hnone'
      have hhalf : s'.held right = some (true, some (.leaf r)) := by
        rw [hsame _ hright (Ne.symm hne), Sight.hold_ne hright, Sight.put_self]
      split_ifs
      · have hleft' : (s'.drop root right).held newRoot = some (true, some (.leaf l)) :=
          (Sight.drop_held_ne hne).trans hleft
        exact minds_unpinPage hs'.settled (minds_performRootInsert hs'.drop.settled hleft' (fun h => absurd h hnew)
          fun _ => hs'.drop.away)
      · have hhalf' : (s'.drop root newRoot).held right = some (true, some (.leaf r)) :=
          (Sight.drop_held_ne (Ne.symm hne)).trans hhalf
        refine minds_asLeaf hs'.settled.calm fun m _ => minds_unpinPage hs'.settled ?_
        exact minds_performRootInsert hs'.drop.settled hhalf' (fun h => absurd h hright) fun _ => hs'.drop.away
    · exact minds_check hs.due (minds_performRootInsert hs hheld (fun _ => rfl) fun h => absurd rfl h)
  | INVALID => exact absurd htype hu

end RootLeaf

/-! ### The calls -/

/-- The assert on the flag is the first one, and holds. -/
theorem minds_upsert {u : Upsert K V} (hpos : 0 < N.ROOT_N) (hu : u.type ≠ .INVALID) (hs : s.Calm layout root) :
    Minds layout root (upsert N O u) s fun _ s' => s'.Calm layout root := by
  simp only [upsert, Prog.bind_def, Prog.pure_def]
  refine minds_getHeader hs ?_
  rintro header s₁ rfl hflag₁ hheld₁ hdue₁ hcalm₁ hclear₁
  refine minds_pinRoot hcalm₁ fun hnone y hmay hy => minds_read fun d hrefers hd => ?_
  set s₂ := (s₁.hold header.rootID header.rootLeaf (some y)).know (layout.isLeaf y) with hs₂
  have hheld₂ : s₂.held header.rootID = some (header.rootLeaf, some y) := Sight.hold_self
  obtain rfl : y = d := by simpa using hd _ _ hheld₂ (.inr rfl)
  have hset : ({ s₂ with due := false } : Sight (BeNode K V)).Settled layout header.rootID :=
    @Sight.settled_pin _ _ layout header.rootID { s₁ with due := false } header.rootLeaf y rfl
  have hcalm₂ : s₂.Calm layout header.rootID := hset.calm
  cases y with
  | inner n => exact absurd rfl (hmay n)
  | leaf n =>
    refine minds_getHeader_held hcalm₂ hheld₂ fun header' _ hflag => ?_
    have hleaf : header.rootLeaf = true := by
      cases h : header.rootLeaf with
      | true => rfl
      | false => exact absurd (hy false (hclear₁ h)) (by simp [layout, BeNode.isLeaf])
    rw [hleaf] at hheld₂
    refine minds_checkFlag (hflag true rfl) ((minds_handleRootLeafUpsert hset hheld₂ hu).mono ?_)
    intro _ s' h
    exact h.settled.calm
  | root n =>
    refine minds_getHeader_held hcalm₂ hheld₂ fun header' _ hflag => ?_
    have hinner : header'.rootLeaf = false := hflag false rfl
    refine minds_checkFlag (by simp [hinner]) (always_bind
      ((minds_handleRootRootUpsert hpos hset hheld₂ fun h => absurd h (by simp)).mono ?_))
    intro success s' h
    split_ifs
    · refine minds_getHeader h.settled.calm ?_
      rintro header₃ s₃ hID - hheld₃ hdue₃ hcalm₃ -
      rw [h.due] at hdue₃
      have hID : header₃.rootID = header.rootID := hID
      rw [hID]
      refine minds_pinRoot hcalm₃ fun _ z _ _ => ?_
      have hset₃ : ((s₃.hold header.rootID true (some z)).know (layout.isLeaf z)).Settled layout header.rootID :=
        Sight.settled_pin hdue₃
      refine always_bind ((minds_handleRootRootUpsert hpos hset₃ Sight.hold_self fun _ => rfl).mono ?_)
      intro _ s'' h''
      exact always_ret h''.settled.calm
    · exact always_ret h.settled.calm

/-- A time stamp is drawn before the flag is read. -/
theorem minds_mutation {u : ℕ → Upsert K V} (hpos : 0 < N.ROOT_N) (hu : ∀ timeStamp, (u timeStamp).type ≠ .INVALID)
    (hs : s.Calm layout root) :
    Minds layout root (drawTimeStamp.bind fun timeStamp => upsert N O (u timeStamp)) s
      fun _ s' => s'.Calm layout root := by
  simp only [drawTimeStamp, Prog.bind_def, Prog.pure_def, Prog.bind_assoc, Prog.ret_bind]
  refine minds_header (fun _ => ⟨rfl, rfl⟩) hs ?_
  intro header s' _ _ _ _ hcalm _
  exact minds_upsert hpos (hu _) hcalm

omit [BoundedOrder K] [DecidableEq V] [Inhabited K] [Inhabited V] in
/-- Reading needs no exclusive latch. -/
theorem minds_find {key : K} (hs : s.Calm layout root) (hdue : s.due = false) :
    Minds layout root (find (V := V) key) s fun _ s' => s'.Calm layout root := by
  have hupdates : ∀ (us : List V) (v : Option V) (s : Sight (BeNode K V)), s.Settled layout root →
      Minds layout root (Prog.forFold addUpdate us v) s fun _ s' => s'.Calm layout root := by
    intro us v s hs
    refine (always_forFold (fun _ _ s => s.Settled layout root) ?_ hs).mono fun _ _ h => h.calm
    intro u us v s hs
    simp only [addUpdate, Prog.bind_def, Prog.pure_def]
    refine minds_check hs.due ?_
    cases v with
    | none => exact always_call hs.calm fun b => b.elim
    | some v => exact always_ret hs
  have hdown : ∀ (child : PageId) (s : Sight (BeNode K V)), s.Settled layout root →
      Minds layout root (Prog.iter (findStep (V := V) key) (child, {})) s fun _ s' => s'.Settled layout root := by
    intro child s hs
    refine always_loop (fun _ s => s.Settled layout root) ?_ hs
    rintro ⟨page, g⟩ s hs
    simp only [findStep, Prog.bind_def, Prog.pure_def]
    refine minds_read fun d hrefers _ => ?_
    cases d with
    | leaf n => exact always_ret (always_ret hs)
    | root n => exact always_ret (always_ret hs)
    | inner n =>
      have hcr := hrefers _ ⟨_, lowerBound_le n.pivots n.size key, rfl⟩
      dsimp only
      split_ifs
      · exact minds_unpinPage hs (always_ret (always_ret hs.drop))
      · exact minds_pinFixed hcr hs fun _ _ => minds_unpinPage (hs.hold hcr) (always_ret (hs.hold hcr).drop)
  simp only [find, Prog.bind_def, Prog.pure_def]
  refine minds_getHeader hs ?_
  rintro header s₁ rfl - - hdue₁ hcalm₁ -
  rw [hdue] at hdue₁
  refine minds_pinRoot hcalm₁ fun _ y _ _ => minds_read fun d hrefers _ => ?_
  have hset : ((s₁.hold header.rootID false (some y)).know (layout.isLeaf y)).Settled layout header.rootID :=
    Sight.settled_pin hdue₁
  cases d with
  | leaf n => exact minds_unpinPage hset (always_ret hset.drop.calm)
  | inner n => exact minds_unpinPage hset (always_ret hset.drop.calm)
  | root n =>
    have hcr := hrefers _ ⟨_, lowerBound_le n.pivots n.size key, rfl⟩
    refine minds_pinFixed hcr hset fun _ o => minds_unpinPage (hset.hold hcr) (always_bind
      ((hdown _ _ (hset.hold hcr).drop).mono ?_))
    rintro ⟨_ | leaf, g⟩ s' hs'
    · exact hupdates _ _ _ hs'
    · refine minds_asLeaf hs'.calm fun m _ => minds_unpinPage hs' ?_
      exact hupdates _ _ _ hs'.drop

end BEpsilon.BeTree
