import BEpsilon.BeTree.SplitRoot

/-!
# BEpsilon.BeTree.RootUpsert — an attempt to bring a message below a root node

`handleRootRootUpsert` ends with the message in the tree, or, where it has the root page latched shared
only, leaves the tree as it is.
-/

namespace BEpsilon.BeTree

open Slots Keyed PageWorld

variable {K V : Type} [LinearOrder K] [BoundedOrder K] [DecidableEq V] [Add V] [Inhabited K] [Inhabited V]
variable {R : PageRules} {N : NodeSizes} {O : Unspecified K V} {A : Prop} {T T' : K → ℕ} {C : K → Option V}
  {header : Header} {kept : Prop} {mem : PageId → Option (BeNode K V)} {created H g : ℕ}
  {recent : List PageId} {pg : ℕ → K → PageId} {u : Upsert K V} {root : BeRootNode K}
  {pins : List (PageId × Option (BeNode K V))}

omit [BoundedOrder K] [DecidableEq V] [Add V] [Inhabited K] [Inhabited V] in
/-- The message inserts a pair that a full leaf right below a root node that is not full already has. -/
def Lossy (N : NodeSizes) (mem : PageId → Option (BeNode K V)) (rootPage : PageId) (u : Upsert K V) : Prop :=
  ∃ root t, mem rootPage = some (.root root) ∧ root.size < N.ROOT_N ∧
    mem (root.children (lowerBound root.pivots root.size u.key)) = some (.leaf t) ∧ FullWith N t u

omit [LinearOrder K] [BoundedOrder K] [DecidableEq V] [Add V] [Inhabited K] [Inhabited V] in
/-- The children of a split root node that do not get the message are released. -/
theorem runs_releaseAll {rest l : List PageId} {α : Type} {f : Unit → BeProg K V α}
    {Q : α → PageWorld (BeNode K V) Header → Prop} (hp : PinsAre pins (rest ++ l))
    (hmem : ∀ c ∈ rest, (mem c).isSome)
    (h : ∀ pins' recent', PinsAre pins' l →
      Runs (handler R) (f ()) ⟨mem, created, header, pins', recent', kept⟩ Q) :
    Runs (handler R)
      ((Prog.forFold (fun _ (child : PageId) => PageProg.unpinPage child true) rest ()).bind f)
      ⟨mem, created, header, pins, recent, kept⟩ Q := by
  refine runs_bind ((runs_forFold (fun rest _ w => (∀ c ∈ rest, (mem c).isSome) ∧ ∃ pins recent,
    w = ⟨mem, created, header, pins, recent, kept⟩ ∧ PinsAre pins (rest ++ l)) ?_
    ⟨hmem, pins, recent, rfl, hp⟩).mono ?_)
  · rintro c rest - _ ⟨hmem, pins, recent, rfl, hp⟩
    have hr : Runs (handler R) ((PageProg.unpinPage c true).bind .ret)
        ⟨mem, created, header, pins, recent, kept⟩ fun _ w => (∀ c ∈ rest, (mem c).isSome) ∧
          ∃ pins recent, w = ⟨mem, created, header, pins, recent, kept⟩ ∧ PinsAre pins (rest ++ l) :=
      runs_release hp (hmem c List.mem_cons_self) fun pins' hp' =>
        runs_ret ⟨fun c hc => hmem c (List.mem_cons_of_mem _ hc), pins', _, rfl, hp'⟩
    rwa [Prog.bind_ret] at hr
  · rintro - w ⟨-, pins', recent', rfl, hp'⟩
    exact h pins' recent' hp'

variable (hlim : R.limit = none) (hN : N.Roomy)
include hlim hN

/-- A full root node is split, and its child takes the message. -/
theorem handleRootRootUpsert_full (hK : Keeps R.ids N A T C mem noFlight header created (g + 1) pg)
    (hT : A → Newest T u T') (hu : u.type ≠ .INVALID)
    (hr : mem header.rootID = some (.root root)) (hfull : root.size = N.ROOT_N)
    (hp : PinsAre pins [header.rootID]) :
    Runs (handler R) (handleRootRootUpsert N O u header.rootID true)
      ⟨mem, created, header, pins, recent, kept⟩ fun b w' =>
        b = true ∧ AtRest R N A T' (Function.update C u.key (u.effect (C u.key))) header kept w' := by
  obtain ⟨root', hroot', hrok, -⟩ := hK.inv.root_page u.key
  obtain rfl : root' = root := by simpa using hroot'.symm.trans hr
  simp only [handleRootRootUpsert, pinTarget, Prog.bind_def, Prog.pure_def]
  refine runs_getHeader (runs_check (by simp) (runs_asRoot hr (.inl (hp.pinned List.mem_cons_self))
    (runs_check (fun _ => decide_eq_true hrok.size_le) ?_)))
  rw [if_neg (by simp), if_pos hfull]
  rw [Prog.bind_assoc]
  refine runs_bind ((splitRootNode_spec hN hlim hK hr hrok hfull hp).mono ?_)
  rintro ⟨children, midPivots⟩ ⟨mem₁, created₁, header₁, pins₁, recent₁, kept₁⟩ ⟨⟨nr, pg', hK', hnr, hroom, hch⟩,
    hloaded, hp₁, he, hk⟩
  dsimp only at hK' hnr hch hloaded hp₁ he hk
  subst he hk
  obtain ⟨hidx, hchild, hempty⟩ := hch u.key
  dsimp only
  rw [hidx]
  set i := lowerBound nr.pivots nr.size u.key with hi
  have hget : children.getD i 0 = pg' (g + 1) u.key := by rw [List.getD_eq_getElem?_getD, hchild]; rfl
  obtain ⟨hlen, helem⟩ := List.getElem?_eq_some_iff.mp hchild
  have hpins : PinsAre pins₁ (children.eraseIdx i ++ [pg' (g + 1) u.key, header₁.rootID]) := by
    refine hp₁.perm ?_
    have h := (List.getElem_cons_eraseIdx_perm hlen).symm.append_right [header₁.rootID]
    rw [helem] at h
    exact h.trans (List.perm_middle (a := pg' (g + 1) u.key)).symm
  rw [Prog.bind_assoc]
  refine runs_releaseAll hpins (fun c hc => hloaded c (List.mem_of_mem_eraseIdx hc)) fun pins₂ recent₂ hp₂ => ?_
  rw [Prog.ret_bind, if_neg (by simp)]
  dsimp only
  rw [hget]
  obtain ⟨n, hn, -⟩ := hK'.inv.inner_page (h := g) (by omega) u.key
  refine runs_read hn (.inl (hp₂.pinned List.mem_cons_self)) ?_
  -- a new child has an empty buffer, so that nothing is flushed
  have hcalm : ¬ N.INNER_B_N ≤ n.upserts.size := by
    rw [hempty n hn]
    exact not_le.mpr hN.buffer_pos
  refine (handleInnerTarget_spec hlim hN.leaf_ge hK' hT hu hnr hroom rfl hn (fun _ h => absurd h hcalm) true true hp₂
    (fun _ _ => .inl rfl) fun h => absurd h (by simp)).mono fun b w' h => ?_
  rcases h with ⟨-, h, -⟩ | h
  · exact absurd h (by simp)
  · exact h

variable (hcalm : R.asserts = true → Calm N (fun i => O.memory (R.ids i)) mem created header.rootID u)
include hcalm

/-- The child of the root node takes the message, or another attempt is needed. -/
theorem runs_target (hK : Keeps R.ids N A T C mem noFlight header created (H + 1) pg)
    (hT : A → Newest T u T') (hu : u.type ≠ .INVALID)
    (hr : mem header.rootID = some (.root root)) (hroom : root.size < N.ROOT_N)
    (hchild : root.children (lowerBound root.pivots root.size u.key) = pg H u.key) (exclusiveMode : Bool) :
    Runs (handler R) ((PageProg.read (pg H u.key)).bind fun
        | .leaf leafNode => handleLeafTarget N O u exclusiveMode header.rootID
            (lowerBound root.pivots root.size u.key) false (pg H u.key) leafNode
        | .inner innerNode => handleInnerTarget N O u exclusiveMode header.rootID
            (lowerBound root.pivots root.size u.key) false (pg H u.key) innerNode
        | .root _ => PageProg.badCast)
      ⟨mem, created, header, (pg H u.key, mem (pg H u.key)) ::
        if exclusiveMode then [(header.rootID, mem header.rootID)] else [], recent, kept⟩ fun b w' =>
        b = false ∧ exclusiveMode = false ∧ GivenUp mem created header kept w' ∨
        b = true ∧ AtRest R N A T' (Function.update C u.key (u.effect (C u.key))) header
          (kept ∧ ¬ Lossy N mem header.rootID u) w' := by
  cases H with
  | zero =>
    obtain ⟨t, ht, -⟩ := hK.inv.leaf_page u.key
    refine runs_read ht (.inl ⟨_, List.mem_cons_self⟩) ?_
    refine (handleLeafTarget_spec hlim hN.leaf_ge hK (fun a => (hT a).mono) hu hr hroom rfl ht exclusiveMode
      rfl).mono fun b w' h =>
        h.imp_right fun h => ⟨h.1, { h.2 with kept := fun hk => h.2.kept ⟨hk.1, fun hf => hk.2 ?_⟩ }⟩
    exact ⟨root, t, hr, hroom, by rw [hchild, ht], hf⟩
  | succ g =>
    obtain ⟨n, hn, -⟩ := hK.inv.inner_page (h := g) (by omega) u.key
    have hne : pg (g + 1) u.key ≠ header.rootID := by
      rw [← hK.inv.routed.top u.key]
      exact hK.inv.routed.page_ne (by omega) le_rfl (by omega)
    refine runs_read hn (.inl ⟨_, List.mem_cons_self⟩) ?_
    refine (handleInnerTarget_spec hlim hN.leaf_ge hK hT hu hr hroom rfl hn
      (fun hon => (hcalm hon).vacantBelow hK.inv hr hroom hn) exclusiveMode false ?_ ?_ ?_).mono
      fun b w' h => h.imp_right fun h => ⟨h.1, { h.2 with kept := fun hk => h.2.kept hk.1 }⟩
    · cases exclusiveMode <;> exact List.Perm.refl _
    · intro s hs
      rcases List.mem_cons.mp hs with h | h
      · exact absurd (Prod.mk.inj h).1.symm hne
      · refine .inr ?_
        cases exclusiveMode with
        | false => simp at h
        | true => exact (Prod.mk.inj (List.mem_singleton.mp h)).2.symm
    · rintro rfl s hs
      simpa [eq_comm] using hs

/-- An attempt where the root node is not full. -/
theorem handleRootRootUpsert_room (hK : Keeps R.ids N A T C mem noFlight header created (H + 1) pg)
    (hT : A → Newest T u T') (hu : u.type ≠ .INVALID)
    (hr : mem header.rootID = some (.root root)) (hroom : root.size < N.ROOT_N) (exclusiveMode : Bool) :
    Runs (handler R) (handleRootRootUpsert N O u header.rootID exclusiveMode)
      ⟨mem, created, header, [(header.rootID, mem header.rootID)], recent, kept⟩ fun b w' =>
        b = false ∧ exclusiveMode = false ∧ GivenUp mem created header kept w' ∨
        b = true ∧ AtRest R N A T' (Function.update C u.key (u.effect (C u.key))) header
          (kept ∧ ¬ Lossy N mem header.rootID u) w' := by
  obtain ⟨root', hroot', hrok, hchild⟩ := hK.inv.root_page u.key
  obtain rfl : root' = root := by simpa using hroot'.symm.trans hr
  have hne : pg H u.key ≠ header.rootID := by
    rw [← hK.inv.routed.top u.key]
    exact hK.inv.routed.page_ne (by omega) le_rfl (by omega)
  have hmem := hK.inv.mem_page (h := H) (by omega) u.key
  simp only [handleRootRootUpsert, pinTarget, Prog.bind_def, Prog.pure_def]
  refine runs_getHeader (runs_check (by simp) (runs_asRoot hr (.inl ⟨_, List.mem_cons_self⟩)
    (runs_check (fun _ => decide_eq_true hrok.size_le) ?_)))
  rw [if_neg (by omega), if_neg (by omega), Prog.bind_assoc, hchild]
  refine runs_pinPage (by simpa using hne.symm) (by simp [hlim])
    (show (mem (pg H u.key)).isSome = !false by rw [Option.isSome_iff_ne_none.mpr hmem]; rfl)
    (hK.inv.known _ hmem) ?_
  rw [Prog.ret_bind]
  cases exclusiveMode with
  | false =>
    exact runs_unpin_second hne (by rw [hr]; rfl) (.inr rfl)
      (runs_target hlim hN hcalm hK hT hu hr hroom hchild false)
  | true => exact runs_target hlim hN hcalm hK hT hu hr hroom hchild true

/-- The attempt with the root page latched shared brings the message in or leaves everything as it was. -/
theorem handleRootRootUpsert_optimistic (hK : Keeps R.ids N A T C mem noFlight header created (H + 1) pg)
    (hT : A → Newest T u T') (hu : u.type ≠ .INVALID) :
    Runs (handler R) (handleRootRootUpsert N O u header.rootID false)
      ⟨mem, created, header, [(header.rootID, mem header.rootID)], recent, kept⟩ fun b w' =>
        b = false ∧ GivenUp mem created header kept w' ∨
        b = true ∧ AtRest R N A T' (Function.update C u.key (u.effect (C u.key))) header
          (kept ∧ ¬ Lossy N mem header.rootID u) w' := by
  obtain ⟨root, hr, hrok, -⟩ := hK.inv.root_page u.key
  rcases hrok.size_le.lt_or_eq with hroom | hfull
  · refine (handleRootRootUpsert_room hlim hN hcalm hK hT hu hr hroom false).mono fun b w' h => ?_
    exact h.imp_left fun h => ⟨h.1, h.2.2⟩
  · simp only [handleRootRootUpsert, Prog.bind_def, Prog.pure_def]
    refine runs_getHeader (runs_check (by simp) (runs_asRoot hr (.inl ⟨_, List.mem_cons_self⟩)
      (runs_check (fun _ => decide_eq_true hrok.size_le) ?_)))
    rw [if_pos ⟨hfull, trivial⟩]
    exact runs_unpin_head (by rw [hr]; rfl) (.inr rfl) (runs_ret (.inl ⟨rfl, _, rfl⟩))

/-- The attempt with the root page latched exclusively brings the message in. -/
theorem handleRootRootUpsert_exclusive (hK : Keeps R.ids N A T C mem noFlight header created (H + 1) pg)
    (hT : A → Newest T u T') (hu : u.type ≠ .INVALID) :
    Runs (handler R) (handleRootRootUpsert N O u header.rootID true)
      ⟨mem, created, header, [(header.rootID, mem header.rootID)], recent, kept⟩ fun b w' =>
        b = true ∧ AtRest R N A T' (Function.update C u.key (u.effect (C u.key))) header
          (kept ∧ ¬ Lossy N mem header.rootID u) w' := by
  obtain ⟨root, hr, hrok, -⟩ := hK.inv.root_page u.key
  rcases hrok.size_le.lt_or_eq with hroom | hfull
  · refine (handleRootRootUpsert_room hlim hN hcalm hK hT hu hr hroom true).mono fun b w' h => ?_
    exact h.resolve_left fun h => absurd h.2.1 (by simp)
  · have hp : PinsAre [(header.rootID, mem header.rootID)] [header.rootID] := List.Perm.refl _
    refine (handleRootRootUpsert_full hlim hN hK hT hu hr hfull hp).mono fun b w' h => ?_
    exact ⟨h.1, { h.2 with kept := fun hk => h.2.kept hk.1 }⟩

end BEpsilon.BeTree
