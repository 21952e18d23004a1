import BEpsilon.BeTree.InnerTarget

/-!
# BEpsilon.BeTree.SplitRoot — a full root node

The loop of `splitRootNode` deals the children of the root node out to fresh inner nodes in chunks; one
pivot stays in the root node between two chunks.
-/

namespace BEpsilon.BeTree

open Slots Keyed PageWorld

variable {K V : Type}

/-- How many children a new child of the root page gets. -/
def NodeSizes.chunk (N : NodeSizes) : ℕ := N.INNER_N / 2 + 1

/-- How many pivots of a node of `size` pivots stay between new children of `w` children each: the last new
child gets what is left, and at most `w - 1` pivots. -/
def midCount (size w : ℕ) : ℕ := (size - 1) / w

theorem midCount_of_mod {size w : ℕ} (hmod : size % w ≠ 0) : midCount size w = size / w := by
  rcases Nat.eq_zero_or_pos w with rfl | hw
  · rw [midCount, Nat.div_zero, Nat.div_zero]
  have hdiv := Nat.div_add_mod size w
  have hlt := Nat.mod_lt size hw
  refine Nat.div_eq_of_lt_le ?_ ?_
  · rw [Nat.mul_comm]
    omega
  · rw [Nat.add_mul, Nat.one_mul, Nat.mul_comm]
    omega

/-- The state of the loop after `t` new children: `created` pages were there before it. -/
structure RootCut (ids : ℕ → PageId) (w : ℕ) (r : BeRootNode K) (mem₀ : PageId → Option (BeNode K V))
    (created t : ℕ) (s : RootSplit K) (mem : PageId → Option (BeNode K V)) : Prop where
  size : s.rootNode.size = r.size
  pivots : ∀ j, t * w ≤ j → s.rootNode.pivots j = r.pivots j
  children : ∀ j, t * w ≤ j → s.rootNode.children j = r.children j
  separators : Fanout.Separators r.pivots w (min t (midCount r.size w)) s.rootNode.pivots
  new_children : ∀ j < t, s.rootNode.children j = ids (created + j)
  newRootSize : s.newRootSize = min t (midCount r.size w)
  newChildren : s.newChildren = (List.range t).map fun j => ids (created + j)
  midPivots : s.midPivots = (List.range (min t (midCount r.size w))).map fun j => r.pivots (j * w + (w - 1))
  new : ∀ j < t, ∃ n : BeInnerNode K V, mem (ids (created + j)) = some (.inner n) ∧
    Fanout.Chunk r.pivots r.children r.size w j n.pivots n.children n.size ∧ n.upserts.size = 0
  others : ∀ id, (∀ j < t, id ≠ ids (created + j)) → mem id = mem₀ id

section Loop

variable {R : PageRules} {N : NodeSizes} {r : BeRootNode K} {mem₀ : PageId → Option (BeNode K V)}
  {created : ℕ} {header : Header} {kept : Prop} {l : List PageId} {mem : PageId → Option (BeNode K V)}
  {w t : ℕ} {s : RootSplit K} {ids : ℕ → PageId}

theorem RootCut.start : RootCut ids w r mem₀ created 0 { rootNode := r } mem₀ := by
  refine ⟨rfl, fun _ _ => rfl, fun _ _ => rfl, fun j hj => ?_, by simp, by simp, rfl, by simp, by simp,
    fun _ _ => rfl⟩
  simp at hj

/-- The inner node that gets a chunk. -/
def chunkNode (L : Leftover K V) (s : RootSplit K) (i pivots : ℕ) : BeInnerNode K V :=
  { BeInnerNode.fresh L with
    pivots := moveTo s.rootNode.pivots i (i + pivots) L.pivots 0
    children := moveTo s.rootNode.children i (i + pivots + 1) L.children 0
    size := pivots }

theorem RootCut.chunk (L : Leftover K V) (hC : RootCut ids w r mem₀ created t s mem) :
    Fanout.Chunk r.pivots r.children r.size w t
      (chunkNode L s (t * w) (min (w - 1) (s.rootNode.size - t * w))).pivots
      (chunkNode L s (t * w) (min (w - 1) (s.rootNode.size - t * w))).children
      (chunkNode L s (t * w) (min (w - 1) (s.rootNode.size - t * w))).size := by
  refine ⟨by rw [chunkNode, hC.size], fun j hj => ?_, fun j hj => ?_⟩
  · simp only [chunkNode] at hj ⊢
    rw [moveTo_zero (by omega), hC.pivots _ (Nat.le_add_right _ _)]
  · simp only [chunkNode] at hj ⊢
    rw [moveTo_zero (by omega), hC.children _ (Nat.le_add_right _ _)]

/-- The page of the new child is written. -/
theorem RootCut.write (hinj : ∀ i j, ids i = ids j → i = j) (hC : RootCut ids w r mem₀ created t s mem)
    {n : BeInnerNode K V} (hn : Fanout.Chunk r.pivots r.children r.size w t n.pivots n.children n.size)
    (hu : n.upserts.size = 0) :
    (∀ j < t + 1, ∃ m : BeInnerNode K V,
      Function.update mem (ids (created + t)) (some (.inner n)) (ids (created + j)) = some (.inner m) ∧
        Fanout.Chunk r.pivots r.children r.size w j m.pivots m.children m.size ∧ m.upserts.size = 0) ∧
    ∀ id, (∀ j < t + 1, id ≠ ids (created + j)) →
      Function.update mem (ids (created + t)) (some (.inner n)) id = mem₀ id := by
  refine ⟨fun j hj => ?_, fun id hid => ?_⟩
  · rcases Nat.lt_succ_iff_lt_or_eq.mp hj with hj | rfl
    · have hne : ids (created + j) ≠ ids (created + t) := fun e => by
        have := hinj _ _ e
        omega
      rw [Function.update_of_ne hne]
      exact hC.new j hj
    · exact ⟨n, Function.update_self _ _ _, hn, hu⟩
  · rw [Function.update_of_ne (hid t (Nat.lt_succ_self t))]
    exact hC.others id fun j hj => hid j (by omega)

/-- The upcoming separator pivot is moved to the left. -/
theorem RootCut.next (hw : 0 < w) (hinj : ∀ i j, ids i = ids j → i = j)
    (hC : RootCut ids w r mem₀ created t s mem) (ht : t < midCount r.size w) {n : BeInnerNode K V}
    (hn : Fanout.Chunk r.pivots r.children r.size w t n.pivots n.children n.size)
    (hu : n.upserts.size = 0) :
    RootCut ids w r mem₀ created (t + 1)
      { rootNode := { s.rootNode with
          pivots := Function.update s.rootNode.pivots s.newRootSize (s.rootNode.pivots (t * w + (w - 1)))
          children := Function.update s.rootNode.children s.newRootSize (ids (created + t)) }
        newRootSize := s.newRootSize + 1
        newChildren := s.newChildren ++ [ids (created + t)]
        midPivots := s.midPivots ++ [s.rootNode.pivots (t * w + (w - 1))] }
      (Function.update mem (ids (created + t)) (some (.inner n))) := by
  obtain ⟨hnew, hothers⟩ := hC.write hinj hn hu
  have hsize : s.newRootSize = t := by rw [hC.newRootSize, min_eq_left ht.le]
  have hmin : min (t + 1) (midCount r.size w) = t + 1 := min_eq_left ht
  have hpast : ∀ j, (t + 1) * w ≤ j → t * w ≤ j ∧ j ≠ t := fun j hj => by
    have := Nat.le_mul_of_pos_right t hw
    rw [Nat.add_mul, Nat.one_mul] at hj
    omega
  have hsep : s.rootNode.pivots (t * w + (w - 1)) = r.pivots (t * w + (w - 1)) :=
    hC.pivots _ (Nat.le_add_right _ _)
  refine ⟨hC.size, fun j hj => ?_, fun j hj => ?_, fun j hj => ?_, fun j hj => ?_, ?_, ?_, ?_, hnew, hothers⟩
  · dsimp only
    rw [hsize, Function.update_of_ne (hpast j hj).2]
    exact hC.pivots j (hpast j hj).1
  · dsimp only
    rw [hsize, Function.update_of_ne (hpast j hj).2]
    exact hC.children j (hpast j hj).1
  · rw [hmin] at hj
    dsimp only
    rw [hsize, hsep]
    rcases Nat.lt_succ_iff_lt_or_eq.mp hj with hj | rfl
    · rw [Function.update_of_ne hj.ne]
      exact hC.separators j (by omega)
    · rw [Function.update_self]
  · dsimp only
    rw [hsize]
    rcases Nat.lt_succ_iff_lt_or_eq.mp hj with hj | rfl
    · rw [Function.update_of_ne hj.ne]
      exact hC.new_children j hj
    · rw [Function.update_self]
  · rw [hmin, hsize]
  · rw [hC.newChildren, List.range_succ, List.map_append]
    rfl
  · rw [hmin, hC.midPivots, min_eq_left ht.le, hsep, List.range_succ, List.map_append]
    rfl

/-- The last child. -/
theorem RootCut.last (hw : 0 < w) (hinj : ∀ i j, ids i = ids j → i = j)
    (hC : RootCut ids w r mem₀ created (midCount r.size w) s mem) {n : BeInnerNode K V}
    (hn : Fanout.Chunk r.pivots r.children r.size w (midCount r.size w) n.pivots n.children n.size)
    (hu : n.upserts.size = 0) :
    RootCut ids w r mem₀ created (midCount r.size w + 1)
      { s with
        rootNode := { s.rootNode with
          children := Function.update s.rootNode.children s.newRootSize (ids (created + midCount r.size w)) }
        newChildren := s.newChildren ++ [ids (created + midCount r.size w)] }
      (Function.update mem (ids (created + midCount r.size w)) (some (.inner n))) := by
  obtain ⟨hnew, hothers⟩ := hC.write hinj hn hu
  have hsize : s.newRootSize = midCount r.size w := by rw [hC.newRootSize, min_self]
  have hmin : min (midCount r.size w + 1) (midCount r.size w) = midCount r.size w := min_eq_right (Nat.le_succ _)
  have hpast : ∀ j, (midCount r.size w + 1) * w ≤ j → midCount r.size w * w ≤ j ∧ j ≠ midCount r.size w :=
    fun j hj => by
    have := Nat.le_mul_of_pos_right (midCount r.size w) hw
    rw [Nat.add_mul, Nat.one_mul] at hj
    omega
  refine ⟨hC.size, fun j hj => hC.pivots j (hpast j hj).1, fun j hj => ?_, ?_, fun j hj => ?_, ?_, ?_, ?_,
    hnew, hothers⟩
  · dsimp only
    rw [hsize, Function.update_of_ne (hpast j hj).2]
    exact hC.children j (hpast j hj).1
  · have h := hC.separators
    rw [min_self] at h
    rwa [hmin]
  · dsimp only
    rw [hsize]
    rcases Nat.lt_succ_iff_lt_or_eq.mp hj with hj | rfl
    · rw [Function.update_of_ne hj.ne]
      exact hC.new_children j hj
    · rw [Function.update_self]
  · rw [hmin, hsize]
  · rw [hC.newChildren, List.range_succ, List.map_append]
    rfl
  · rw [hmin, hC.midPivots, min_self]

/-- The world in the loop of `splitRootNode`; the pages `l` are held besides the new children. -/
structure RootCutAt (R : PageRules) (w : ℕ) (r : BeRootNode K) (mem₀ : PageId → Option (BeNode K V))
    (created : ℕ) (header : Header) (kept : Prop) (l : List PageId) (t : ℕ) (s : RootSplit K)
    (world : PageWorld (BeNode K V) Header) : Prop where
  cut : RootCut R.ids w r mem₀ created t s world.mem
  created_eq : world.created = created + t
  pins : PinsAre world.pins ((List.range t).map (fun j => R.ids (created + j)) ++ l)
  header_eq : world.header = header
  kept_eq : world.kept = kept

variable [LinearOrder K] [BoundedOrder K] [DecidableEq V] [Add V]

omit [LinearOrder K] [BoundedOrder K] [DecidableEq V] [Add V] in
/-- The loop makes one child more than there are separators. -/
theorem splitRootChildren_spec (hlim : R.limit = none) (hsize : 0 < r.size)
    (hfresh : ∀ j, mem₀ (R.ids (created + j)) = none ∧ R.ids (created + j) ∉ l)
    {world : PageWorld (BeNode K V) Header}
    (hw : RootCutAt R N.chunk r mem₀ created header kept l 0 { rootNode := r } world) :
    Runs (handler R) (Prog.iter (splitRootChild N O) (0, { rootNode := r })) world fun s w' =>
      RootCutAt R N.chunk r mem₀ created header kept l (midCount r.size N.chunk + 1) s w' := by
  have hpos : 0 < N.chunk := Nat.succ_pos _
  have hround : ∀ t, t * N.chunk < r.size ↔ t ≤ midCount r.size N.chunk := fun t => by
    rw [midCount, Nat.le_div_iff_mul_le hpos]
    omega
  refine runs_loop (fun m (p : ℕ × RootSplit K) w' => ∃ t, p.1 = t * N.chunk ∧
    t ≤ midCount r.size N.chunk + 1 ∧ m = midCount r.size N.chunk + 1 - t ∧
    RootCutAt R N.chunk r mem₀ created header kept l t p.2 w') ?_
    ⟨0, (Nat.zero_mul _).symm, Nat.zero_le _, rfl, hw⟩
  rintro _ ⟨i, s⟩ ⟨mem, created', header', pins, recent, kept'⟩ ⟨t, rfl, ht, rfl, ⟨hC, hcr, hp, he, hk⟩⟩
  dsimp only at hC hcr hp he hk
  subst hcr
  simp only [splitRootChild, Prog.bind_def, Prog.pure_def]
  split
  next hlt =>
    have hle : t ≤ midCount r.size N.chunk := (hround t).mp (hC.size ▸ hlt)
    have hfreshm : mem (R.ids (created + t)) = none := by
      rw [hC.others _ fun j hj e => ?_]
      · exact (hfresh t).1
      · have := R.ids_inj _ _ e
        omega
    have hnot : R.ids (created + t) ∉ (List.range t).map (fun j => R.ids (created + j)) ++ l := by
      intro hm
      rcases List.mem_append.mp hm with hm | hm
      · obtain ⟨j, hj, e⟩ := List.mem_map.mp hm
        have := R.ids_inj _ _ e
        have := List.mem_range.mp hj
        omega
      · exact (hfresh t).2 hm
    have hids : (R.ids (created + t) :: ((List.range t).map (fun j => R.ids (created + j)) ++ l)).Perm
        ((List.range (t + 1)).map (fun j => R.ids (created + j)) ++ l) := by
      rw [List.range_succ, List.map_append, List.append_assoc]
      exact List.perm_middle.symm
    have hpins := (hp.cons (R.ids (created + t)) (mem (R.ids (created + t)))).perm hids
    refine runs_createPage (runs_pinPage (hp.ne hnot) (by simp [hlim]) (by rw [hfreshm]; rfl)
      ⟨created + t, by omega, rfl⟩ (runs_write ⟨_, List.mem_cons_self⟩ ?_))
    have hchunk := hC.chunk (O.memory (R.ids (created + t)))
    have hnum : (t + 1) * N.chunk = t * N.chunk + N.chunk := by rw [Nat.add_mul, Nat.one_mul]
    have hwidth : N.chunk - 1 = N.INNER_N / 2 := rfl
    have hlast : s.rootNode.size ≤ t * N.chunk + (N.INNER_N / 2 + 1) ↔ t = midCount r.size N.chunk := by
      rw [hC.size, ← NodeSizes.chunk, ← hnum, ← not_lt, hround]
      omega
    split
    next h =>
      obtain rfl := hlast.mp (of_decide_eq_true h)
      exact runs_ret ⟨_, by omega, _, hnum.symm, le_rfl, rfl,
        ⟨hC.last hpos R.ids_inj hchunk rfl, rfl, hpins, he, hk⟩⟩
    next h =>
      have hlt' : t < midCount r.size N.chunk := lt_of_le_of_ne hle fun e => h (decide_eq_true (hlast.mpr e))
      have hmin : min (N.INNER_N / 2) (s.rootNode.size - t * N.chunk) = N.INNER_N / 2 := by
        have : (t + 1) * N.chunk < r.size := (hround _).mpr hlt'
        have : N.chunk = N.INNER_N / 2 + 1 := rfl
        rw [hC.size]
        omega
      refine runs_ret ⟨_, ?_, _, hnum.symm, by omega, rfl,
        ⟨?_, rfl, hpins, he, hk⟩⟩
      · omega
      · dsimp only
        rw [hmin]
        have h := hC.next hpos R.ids_inj hlt' hchunk rfl
        rwa [hwidth, hmin] at h
  next hge =>
    have hend : t = midCount r.size N.chunk + 1 := by
      have : ¬ t ≤ midCount r.size N.chunk := fun h => hge (hC.size ▸ (hround t).mpr h)
      omega
    subst hend
    exact runs_ret (runs_ret ⟨hC, rfl, hp, he, hk⟩)

end Loop

/-! ### The routine -/

section Routine

variable [LinearOrder K] [BoundedOrder K] [DecidableEq V] [Add V] [Inhabited K] [Inhabited V]
variable {R : PageRules} {N : NodeSizes} {O : Unspecified K V} {A : Prop} {T : K → ℕ} {C : K → Option V}
  {header : Header} {kept : Prop} {mem : PageId → Option (BeNode K V)} {created g : ℕ} {recent : List PageId}
  {pg : ℕ → K → PageId} {r : BeRootNode K} {pins : List (PageId × Option (BeNode K V))}

omit [BoundedOrder K] [DecidableEq V] [Inhabited V] in
/-- The root node has been split, its new children are held besides it; their buffers are empty. -/
structure RootDivided (R : PageRules) (N : NodeSizes) (A : Prop) (T : K → ℕ) (C : K → Option V)
    (header : Header) (kept : Prop) (g : ℕ) (children : List PageId) (midPivots : List K)
    (w : PageWorld (BeNode K V) Header) : Prop where
  tree : ∃ nr pg, Keeps R.ids N A T C w.mem noFlight w.header w.created (g + 2) pg ∧
    w.mem header.rootID = some (.root nr) ∧ nr.size < N.ROOT_N ∧
    ∀ key, lowerBound (fun i => midPivots.getD i default) midPivots.length key =
        lowerBound nr.pivots nr.size key ∧
      children[lowerBound nr.pivots nr.size key]? = some (pg (g + 1) key) ∧
      ∀ n, w.mem (pg (g + 1) key) = some (.inner n) → n.upserts.size = 0
  loaded : ∀ c ∈ children, (w.mem c).isSome
  pins : PinsAre w.pins (children ++ [header.rootID])
  header_eq : w.header = header
  kept_eq : w.kept = kept

omit [BoundedOrder K] [DecidableEq V] [Inhabited V] in
theorem splitRootNode_spec (hN : N.Roomy) (hlim : R.limit = none)
    (hK : Keeps R.ids N A T C mem noFlight header created (g + 1) pg)
    (hr : mem header.rootID = some (.root r)) (hok : RootOk N r) (hfull : r.size = N.ROOT_N)
    (hp : PinsAre pins [header.rootID]) :
    Runs (handler R) (splitRootNode N O header.rootID) ⟨mem, created, header, pins, recent, kept⟩
      fun res w' => RootDivided R N A T C header kept g res.1 res.2 w' := by
  have hpos : 0 < N.chunk := Nat.succ_pos _
  have hmid := midCount_of_mod (show r.size % N.chunk ≠ 0 from hfull ▸ hN.root_mod)
  have hfreshm : ∀ j, mem (R.ids (created + j)) = none := fun j =>
    (hK.inv.fresh_mem R.ids_inj (Nat.le_add_right _ _)).1
  have hne : ∀ j, header.rootID ≠ R.ids (created + j) := fun j e => by
    have h := hfreshm j
    rw [← e, hr] at h
    simp at h
  simp only [splitRootNode, Prog.bind_def, Prog.pure_def]
  refine runs_asRoot hr (.inl (hp.pinned (List.mem_singleton_self _))) (runs_bind ?_)
  have hge := hN.root_ge
  have hinner := N.inner_ge
  have hloop := splitRootChildren_spec (O := O) hlim (by omega) (l := [header.rootID])
    (fun j => ⟨hfreshm j, by simpa using (hne j).symm⟩)
    (show RootCutAt R N.chunk r mem created header kept [header.rootID] 0 { rootNode := r }
      ⟨mem, created, header, pins, recent, kept⟩ from ⟨.start, rfl, hp, rfl, rfl⟩)
  rw [hmid] at hloop
  refine hloop.mono ?_
  rintro s ⟨mem₁, created₁, header₁, pins₁, recent₁, kept₁⟩ ⟨hC, hcr, hp₁, he, hk⟩
  dsimp only at hC hcr hp₁ he hk
  subst hcr he hk
  have hmin : min (r.size / N.chunk + 1) (midCount r.size N.chunk) = r.size / N.chunk := by
    rw [hmid]
    exact min_eq_right (Nat.le_succ _)
  have hsize := hC.newRootSize
  have hsep := hC.separators
  have hmids := hC.midPivots
  rw [hmin] at hsize hsep hmids
  have hroot := hp₁.pinned (List.mem_append_right _ (List.mem_singleton_self header₁.rootID))
  refine runs_write hroot (runs_ret ?_)
  have hG : RootGrown R.ids N mem (Function.update mem₁ header₁.rootID
      (some (.root { s.rootNode with size := s.newRootSize }))) header₁.rootID created (g + 1) pg
      (r.size / N.chunk + 1) fun k => lowerBound r.pivots r.size k / N.chunk := by
    refine rootGrown_root hK.inv R.ids_inj hr hok hpos ?_ (Function.update_self _ _ _) hsize hsep
      (fun t ht => hC.new_children t (Nat.lt_succ_of_le ht)) (fun t ht => ?_) fun id h₁ h₂ => ?_
    · rw [NodeSizes.chunk]
      omega
    · rw [Function.update_of_ne (hne t).symm]
      exact hC.new t (Nat.lt_succ_of_le ht)
    · rw [Function.update_of_ne h₁]
      exact hC.others id fun j hj => h₂ j (Nat.le_of_lt_succ hj)
  have hheader : ({ header₁ with rootLeaf := false } : Header) = header₁ := by
    have h := hK.inv.flag
    cases hf : header₁.rootLeaf with
    | true => exact absurd (h.mp hf) (Nat.succ_ne_zero g)
    | false => rw [← hf]
  have hK' : Keeps R.ids N A T C _ noFlight header₁ (created + (r.size / N.chunk + 1)) (g + 2) _ :=
    ⟨hheader ▸ hG.treeInv hK.inv R.ids_inj, fun a => hG.held hK.inv R.ids_inj (hK.held a)⟩
  refine ⟨⟨_, _, hK', Function.update_self _ _ _, ?_, fun key => ?_⟩, fun c hc => ?_, ?_, rfl, rfl⟩
  · have hlt : r.size / N.chunk < r.size := Nat.div_lt_self (by omega) (by
      rw [NodeSizes.chunk]
      omega)
    show s.newRootSize < _
    omega
  · have hlow : lowerBound s.rootNode.pivots s.newRootSize key = lowerBound r.pivots r.size key / N.chunk := by
      rw [hsize, Fanout.lowerBound_separators hok.sorted hpos hsep]
    have hmid : lowerBound (fun i => s.midPivots.getD i default) s.midPivots.length key =
        lowerBound r.pivots r.size key / N.chunk := by
      have hlen : s.midPivots.length = r.size / N.chunk := by simp [hmids]
      rw [hlen]
      refine Fanout.lowerBound_separators hok.sorted hpos (fun t ht => ?_) key
      simp [hmids, ht]
    have hle : lowerBound r.pivots r.size key / N.chunk < r.size / N.chunk + 1 :=
      Nat.lt_succ_of_le (Nat.div_le_div_right (lowerBound_le _ _ _))
    refine ⟨hmid.trans hlow.symm, ?_, fun n hn => ?_⟩
    · show s.newChildren[lowerBound s.rootNode.pivots s.newRootSize key]? = _
      rw [hlow, hC.newChildren, Routed.growPg_new]
      simp [hle]
    · obtain ⟨n', hn', -, hu⟩ := hC.new _ hle
      dsimp only at hn
      rw [Routed.growPg_new, Function.update_of_ne (hne _).symm, hn'] at hn
      cases hn
      exact hu
  · have hc' : c ∈ s.newChildren := hc
    rw [hC.newChildren] at hc'
    obtain ⟨j, hj, rfl⟩ := List.mem_map.mp hc'
    obtain ⟨n, hn, -⟩ := hC.new j (List.mem_range.mp hj)
    dsimp only
    rw [Function.update_of_ne (hne j).symm, hn]
    rfl
  · show PinsAre pins₁ (s.newChildren ++ _)
    rw [hC.newChildren]
    exact hp₁

end Routine

end BEpsilon.BeTree
