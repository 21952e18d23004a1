import BEpsilon.BeTree.Gather

/-!
# BEpsilon.BeTree.Find — what `find` answers

`find` pins the pages of one path one after another and changes none of them.  Below a root node it adds the
updates that the descent gathered to the base; where there are updates but no base it ends with an error.
While the root page is a leaf it answers nothing.
-/

namespace BEpsilon.BeTree

open Slots Keyed PageWorld

variable {K V : Type} [LinearOrder K] [BoundedOrder K] [DecidableEq V] [Add V] [Inhabited K] [Inhabited V]

/-! ### The descent -/

section Descent

/-- `find` without the updates that it adds at the end. -/
def gatherPath (key : K) : BeProg K V (Gathered V) := do
  let rootPage := (← PageProg.getHeader).rootID
  PageProg.pinPage rootPage (.fixed false) false
  match ← PageProg.read rootPage with
  | .root rootNode =>
    let child := rootNode.children (lowerBound rootNode.pivots rootNode.size key)
    PageProg.pinPage child (.fixed false) false
    PageProg.unpinPage rootPage false
    let (currentPage, s) ← Prog.iter (findStep key) (child, {})
    match currentPage with
    | some page => do
      let leafNode ← asLeaf page
      let currentValue := if s.currentValue.isSome then s.currentValue
        else lookup leafNode.keys leafNode.values leafNode.size key
      PageProg.unpinPage page false
      return { s with currentValue := currentValue }
    | none => return s
  | _ =>
    PageProg.unpinPage rootPage false
    return {}

omit [BoundedOrder K] [DecidableEq V] [Inhabited K] [Inhabited V] in
theorem find_eq (key : K) :
    find key = (gatherPath key).bind fun s : Gathered V =>
      Prog.forFold addUpdate s.accumulatedUpdates s.currentValue := by
  simp only [find, gatherPath, Prog.bind_def, Prog.pure_def, Prog.bind_assoc]
  congr 1
  funext header
  congr 1
  funext u
  congr 1
  funext d
  cases d with
  | leaf n => rfl
  | inner n => rfl
  | root n =>
    simp only [Prog.bind_assoc]
    congr 1
    funext u
    congr 1
    funext u
    congr 1
    funext x
    obtain ⟨currentPage, s⟩ := x
    cases currentPage with
    | none => rfl
    | some page => simp only [Prog.bind_assoc, Prog.ret_bind]

variable {R : PageRules} {N : NodeSizes} {mem : PageId → Option (BeNode K V)} {created : ℕ} {header : Header}
  {recent : List PageId} {kept : Prop} {H : ℕ} {pg : ℕ → K → PageId} {key : K}

omit [BoundedOrder K] [DecidableEq V] [Add V] [Inhabited K] [Inhabited V] in
/-- The message for the key in the buffer of an inner node on its path. -/
theorem seek_upserts {h : ℕ} (hh : h ≤ H) {n : BeInnerNode K V} (hn : mem (pg h key) = some (.inner n)) :
    seek Upsert.key n.upserts.toList key = levels mem noFlight pg H h key := by
  rw [levels_apply hh, waitingAt_inner hn]
  rfl

variable (hlim : R.limit = none)
include hlim

variable (recent kept key) in
omit [BoundedOrder K] [DecidableEq V] [Add V] [Inhabited K] [Inhabited V] in
/-- The descent ends at the leaf or before it, with no page pinned and the tree as it was. -/
theorem runs_gatherPath (hT : TreeInv R.ids N mem noFlight header created (H + 1) pg) :
    Runs (handler R) (gatherPath key) ⟨mem, created, header, [], recent, kept⟩ fun s w =>
      s = gatherBelow (levels mem noFlight pg (H + 1)) (leafEntry mem pg) key H [] ∧
        ∃ recent', w = ⟨mem, created, header, [], recent', kept⟩ := by
  have htop : pg (H + 1) key = header.rootID := hT.routed.top key
  have hsome : ∀ h ≤ H + 1, (mem (pg h key)).isSome = !false := by
    intro h hh
    simpa [Option.isSome_iff_ne_none] using hT.mem_page hh key
  obtain ⟨root, hroot, -, hchild⟩ := hT.root_page key
  have hne : header.rootID ≠ pg H key := htop ▸ hT.routed.page_ne le_rfl (by omega) (by omega)
  simp only [gatherPath, Prog.bind_def, Prog.pure_def]
  refine runs_getHeader (runs_pinPage (by simp) (by simp [hlim]) (htop ▸ hsome _ le_rfl)
    (hT.known _ (by rw [hroot]; simp)) (runs_read hroot (.inl ⟨_, List.mem_cons_self⟩) ?_))
  simp only [hchild]
  refine runs_pinPage (by simpa using hne) (by simp [hlim]) (hsome _ (by omega))
    (hT.known _ (hT.mem_page (by omega) key)) ?_
  refine runs_unpin_second hne.symm (by rw [hroot]; rfl) (.inr rfl) ?_
  -- the loop stands at a page of the path, without a base so far
  refine runs_loop (fun h s w => h ≤ H ∧ ∃ updates recent, s = (pg h key, ⟨none, updates⟩) ∧
    gatherBelow (levels mem noFlight pg (H + 1)) (leafEntry mem pg) key h updates =
      gatherBelow (levels mem noFlight pg (H + 1)) (leafEntry mem pg) key H [] ∧
    w = ⟨mem, created, header, [(pg h key, mem (pg h key))], recent, kept⟩) ?_
    ⟨le_rfl, [], _, rfl, rfl, rfl⟩
  rintro h s w ⟨hh, updates, recent, rfl, hgather, rfl⟩
  simp only [findStep, Prog.bind_def, Prog.pure_def]
  cases h with
  | zero =>
    obtain ⟨t, ht, -⟩ := hT.leaf_page key
    refine runs_read ht (.inl ⟨_, List.mem_cons_self⟩) (runs_ret ?_)
    dsimp only
    refine runs_asLeaf ht (.inl ⟨_, List.mem_cons_self⟩)
      (runs_unpin_head (by rw [ht]; rfl) (.inr rfl) (runs_ret ⟨?_, _, rfl⟩))
    rw [← hgather, gatherBelow, leafEntry_of_leaf ht]
    rfl
  | succ h =>
    obtain ⟨n, hn, hok, hchild⟩ := hT.inner_page (h := h) (by omega) key
    have hbelow : pg (h + 1) key ≠ pg h key := hT.routed.page_ne (by omega) (by omega) (by omega)
    have hunpin : (mem (pg (h + 1) key)).isSome := by rw [hn]; rfl
    refine runs_read hn (.inl ⟨_, List.mem_cons_self⟩) ?_
    rw [gatherBelow] at hgather
    simp only [gather_eq hok.upserts, seek_upserts (by omega : h + 1 ≤ H + 1) hn, hchild]
    -- the page below is pinned before this one is released
    have hnext : ∀ {α : Type} {f : Unit → BeProg K V α} {Q : α → PageWorld (BeNode K V) Header → Prop},
        Runs (handler R) (f ())
          ⟨mem, created, header, [(pg h key, mem (pg h key))], [pg (h + 1) key], kept⟩ Q →
        Runs (handler R) ((PageProg.pinPage (pg h key) (.fixed false) false).bind fun _ =>
          (PageProg.unpinPage (pg (h + 1) key) false).bind f)
          ⟨mem, created, header, [(pg (h + 1) key, mem (pg (h + 1) key))], recent, kept⟩ Q :=
      fun hf => runs_pinPage (by simpa using hbelow) (by simp [hlim]) (hsome _ (by omega))
        (hT.known _ (hT.mem_page (by omega) key)) (runs_unpin_second hbelow.symm hunpin (.inr rfl) hf)
    cases hu : levels mem noFlight pg (H + 1) (h + 1) key with
    | none =>
      rw [hu] at hgather
      exact hnext (runs_ret ⟨h, by omega, by omega, updates, _, rfl, hgather, rfl⟩)
    | some u =>
      rw [hu] at hgather
      obtain ⟨k, value, timeStamp, type⟩ := u
      cases type with
      | INSERT => exact runs_unpin_head hunpin (.inr rfl) (runs_ret (runs_ret ⟨hgather, _, rfl⟩))
      | DELETE => exact runs_unpin_head hunpin (.inr rfl) (runs_ret (runs_ret ⟨hgather, _, rfl⟩))
      | UPDATE => exact hnext (runs_ret ⟨h, by omega, by omega, value :: updates, _, rfl, hgather, rfl⟩)
      | INVALID => exact hnext (runs_ret ⟨h, by omega, by omega, updates, _, rfl, hgather, rfl⟩)

end Descent

/-! ### The answer -/

section Answer

variable {R : PageRules} {N : NodeSizes} {O : Unspecified K V} {C : K → Option V} {H : ℕ} {pg : ℕ → K → PageId}
  {key : K} {w : PageWorld (BeNode K V) Header}

omit [LinearOrder K] [BoundedOrder K] [DecidableEq V] [Inhabited K] [Inhabited V] in
theorem runs_addUpdates (updates : List V) (base : V) :
    Runs (handler R) (Prog.forFold addUpdate updates (some base) : BeProg K V (Option V)) w
      fun o w' => o = some (updates.foldl (· + ·) base) ∧ w' = w := by
  induction updates generalizing base with
  | nil => exact runs_ret ⟨rfl, rfl⟩
  | cons v updates ih =>
    refine runs_bind (runs_call (v := w) (b := ()) ?_ (runs_ret (ih (base + v))))
    simp [handler]

omit [LinearOrder K] [BoundedOrder K] [DecidableEq V] [Inhabited K] [Inhabited V] in
/-- Without a base the first update dereferences an empty value. -/
theorem raises_addUpdates {updates : List V} (hne : updates ≠ []) :
    ∃ e, Raises (handler R) (Prog.forFold addUpdate updates none : BeProg K V (Option V)) w e fun _ => True := by
  cases updates with
  | nil => exact absurd rfl hne
  | cons v updates =>
    cases hA : R.asserts with
    | true =>
      have hcheck : handler R _ (.check (none : Option V).isSome) w = .raise .assertFailed w := by
        simp [handler, hA]
      exact ⟨.assertFailed, Raises.bind (raises_call hcheck trivial)⟩
    | false =>
      have hcheck : handler R _ (.check (none : Option V).isSome) w = .ok () w := by
        simp [handler, hA]
      have hraise : handler R _ (.raise .noValue) w = .raise .noValue w := rfl
      exact ⟨.noValue, Raises.bind (raises_call_ok hcheck (raises_call hraise trivial))⟩

/-- The pages and the header are as they were. -/
structure SameTree (w w' : PageWorld (BeNode K V) Header) : Prop where
  mem : w'.mem = w.mem
  created : w'.created = w.created
  header : w'.header = w.header
  pins : w'.pins = w.pins

variable (hlim : R.limit = none)
include hlim

omit [BoundedOrder K] [DecidableEq V] [Inhabited K] [Inhabited V] in
/-- Below a root node `find` adds the gathered updates to the base. -/
theorem runs_find (hT : TreeInv R.ids N w.mem noFlight w.header w.created (H + 1) pg) (hpins : w.pins = [])
    {s : Gathered V} (hs : s = gatherBelow (levels w.mem noFlight pg (H + 1)) (leafEntry w.mem pg) key H [])
    (hbase : s.currentValue = none → s.accumulatedUpdates = []) :
    Runs (handler R) (find key) w fun o w' =>
      o = s.currentValue.map (fun v => s.accumulatedUpdates.foldl (· + ·) v) ∧ SameTree w w' := by
  obtain ⟨mem, created, header, pins, recent, kept⟩ := w
  dsimp only at hT hpins hs
  subst hpins
  rw [find_eq]
  refine runs_bind ((runs_gatherPath _ _ _ hlim hT).mono ?_)
  rintro _ _ ⟨rfl, recent', rfl⟩
  rw [← hs]
  cases hv : s.currentValue with
  | none =>
    rw [hbase hv]
    exact runs_ret ⟨rfl, rfl, rfl, rfl, rfl⟩
  | some v =>
    refine (runs_addUpdates _ v).mono ?_
    rintro o _ ⟨rfl, rfl⟩
    exact ⟨rfl, rfl, rfl, rfl, rfl⟩

omit [BoundedOrder K] [DecidableEq V] [Inhabited K] [Inhabited V] in
/-- Updates without a base end the call with an error. -/
theorem raises_find (hT : TreeInv R.ids N w.mem noFlight w.header w.created (H + 1) pg) (hpins : w.pins = [])
    {s : Gathered V} (hs : s = gatherBelow (levels w.mem noFlight pg (H + 1)) (leafEntry w.mem pg) key H [])
    (hnone : s.currentValue = none) (hne : s.accumulatedUpdates ≠ []) :
    ∃ e, Raises (handler R) (find key) w e fun _ => True := by
  obtain ⟨mem, created, header, pins, recent, kept⟩ := w
  dsimp only at hT hpins hs
  subst hpins
  obtain ⟨n, _, w', he, rfl, recent', rfl⟩ :=
    (runs_gatherPath recent kept key hlim hT)
  obtain ⟨e, hraises⟩ := raises_addUpdates (R := R) (w := (⟨mem, created, header, [], recent', kept⟩ :
    PageWorld (BeNode K V) Header)) hne
  refine ⟨e, ?_⟩
  rw [find_eq]
  refine Runs.raises_bind ⟨n, _, _, he, ?_⟩
  rw [← hs]
  dsimp only
  rw [hnone]
  exact hraises

variable (key) in
omit [BoundedOrder K] [DecidableEq V] [Inhabited K] [Inhabited V] in
/-- While the root page is a leaf `find` answers nothing. -/
theorem runs_find_leaf (hT : TreeInv R.ids N w.mem noFlight w.header w.created 0 pg) (hpins : w.pins = []) :
    Runs (handler R) (find key) w fun o w' => o = none ∧ SameTree w w' := by
  obtain ⟨mem, created, header, pins, recent, kept⟩ := w
  dsimp only at hT hpins
  subst hpins
  obtain ⟨t, ht, -⟩ := hT.root_leaf key
  simp only [find, Prog.bind_def, Prog.pure_def]
  refine runs_getHeader (runs_pinPage (by simp) (by simp [hlim]) (by rw [ht]; rfl)
    (hT.known _ (by rw [ht]; simp)) (runs_read ht (.inl ⟨_, List.mem_cons_self⟩) ?_))
  exact runs_unpin_head (by rw [ht]; rfl) (.inr rfl) (runs_ret ⟨rfl, rfl, rfl, rfl, rfl⟩)

end Answer

end BEpsilon.BeTree
