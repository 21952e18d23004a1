import BEpsilon.BeTree.FlushInner

/-!
# BEpsilon.BeTree.LeafTarget — a message for a leaf below the root node

The leaf takes the message at once.  A full leaf is split before an insertion, which needs the root node
latched exclusively.
-/

namespace BEpsilon.BeTree

open Slots Keyed PageWorld

variable {K V : Type} [LinearOrder K] [Add V]

/-- The world between two calls: a tree that holds `C`, and no page is pinned.  A root page that was no leaf
before the call is none.  If nothing was lost before the call, and it is not one that loses something, nothing
is. -/
structure AtRest (R : PageRules) (N : NodeSizes) (A : Prop) (T : K → ℕ) (C : K → Option V) (header : Header)
    (kept : Prop) (w : PageWorld (BeNode K V) Header) : Prop where
  tree : ∃ H pg, Keeps R.ids N A T C w.mem noFlight w.header w.created H pg
  pins : w.pins = []
  rootID : w.header.rootID = header.rootID
  timeStamp : w.header.currentTimeStamp = header.currentTimeStamp
  rootLeaf : w.header.rootLeaf = true → header.rootLeaf = true
  kept : kept → w.kept

/-- The world after an attempt that was given up: the pages are as before, and no page is pinned. -/
def GivenUp (mem : PageId → Option (BeNode K V)) (created : ℕ) (header : Header) (kept : Prop)
    (w : PageWorld (BeNode K V) Header) : Prop :=
  ∃ recent, w = ⟨mem, created, header, [], recent, kept⟩

/-- The message inserts a pair that a full leaf already has. -/
def FullWith (N : NodeSizes) (t : BeLeafNode K V) (u : Upsert K V) : Prop :=
  u.type = .INSERT ∧ t.size = N.LEAF_N ∧ t.get u.key = some u.value

section RootPivot

variable {N : NodeSizes} {root : BeRootNode K}

omit [Add V] in
/-- The root node learns a pivot and a page. -/
theorem insertPivot_ok (hroom : root.size < N.ROOT_N) {i : ℕ} {mid : K} {r : PageId} {H : ℕ}
    (hs : Sorted (insertAt root.pivots root.size i mid) (root.size + 1))
    (hd : Fanout.Distinct (insertAt root.children (root.size + 1) (i + 1) r) (root.size + 1)) :
    NodeOk N H H (.root (root.insertPivot i mid r) : BeNode K V) :=
  ⟨rfl, hs, hd, hroom⟩

end RootPivot

namespace Keeps

variable {ids : ℕ → PageId} {N : NodeSizes} {A : Prop} {T : K → ℕ} {C : K → Option V}
  {mem : PageId → Option (BeNode K V)} {header : Header} {created : ℕ} {pg : ℕ → K → PageId}
  {L : Leftover K V}

/-- A leaf below the root node is split at the median key. -/
theorem split_target_leaf (hK : Keeps ids N A T C mem noFlight header created 1 pg)
    (hinj : ∀ i j, ids i = ids j → i = j) {root : BeRootNode K}
    (hroot : mem header.rootID = some (.root root)) (hok : RootOk N root) (hroom : root.size < N.ROOT_N)
    {k₀ mid : K} {t : BeLeafNode K V} (ht : mem (pg 0 k₀) = some (.leaf t))
    (hmid : pg 0 mid = pg 0 k₀) (hup : ∃ z, pg 0 z = pg 0 k₀ ∧ mid < z) (hs : Sorted t.keys t.size)
    (hl : (t.leftHalf mid).size ≤ N.LEAF_N) (hr : (t.rightHalf L mid).size ≤ N.LEAF_N) :
    Keeps ids N A T C
      (Function.update (Function.update (Function.update mem (ids created) (some (.leaf (t.rightHalf L mid))))
        (pg 0 k₀) (some (.leaf (t.leftHalf mid)))) header.rootID
        (some (.root (root.insertPivot (lowerBound root.pivots root.size k₀) mid (ids created)))))
      noFlight header (created + 1) 1 (Routed.splitPg pg 0 (pg 0 k₀) (ids created) mid) := by
  have hT := hK.inv
  have hfresh : ∀ h ≤ 1, ∀ k, pg h k ≠ ids created := fun h hh k => hT.fresh_page hinj le_rfl hh k
  have htop : pg 1 k₀ = header.rootID := hT.routed.top k₀
  have hqr : pg 0 k₀ ≠ ids created := hfresh 0 (by omega) k₀
  have hrc : header.rootID ≠ ids created := htop ▸ hfresh 1 le_rfl k₀
  have hqroot : pg 0 k₀ ≠ header.rootID := by
    rw [← htop]
    exact hT.routed.page_ne (by omega) le_rfl (by omega)
  refine hK.split hinj (hT.split_leaf (.root root)
    (.root (root.insertPivot (lowerBound root.pivots root.size k₀) mid (ids created))) hinj (t := t) Nat.one_pos
    (by rw [htop, hroot]) rfl hok.sorted hok.distinct ht hmid hup (halves_of_cut hs L mid) hl hr
    (by rw [htop, Function.update_self]) rfl rfl (insertPivot_ok hroom) ?_ ?_ fun id h₁ h₂ h₃ => ?_)
  · rw [Function.update_of_ne hqroot, Function.update_self]
  · rw [Function.update_of_ne hrc.symm, Function.update_of_ne hqr.symm, Function.update_self]
  · rw [htop] at h₁
    rw [Function.update_of_ne h₁, Function.update_of_ne h₂, Function.update_of_ne h₃]

end Keeps

section Routine

variable [BoundedOrder K] [DecidableEq V] [Inhabited K] [Inhabited V]
variable {R : PageRules} {N : NodeSizes} {A : Prop} {T T' : K → ℕ} {C : K → Option V} {header : Header}
  {kept : Prop} {mem : PageId → Option (BeNode K V)} {created : ℕ} {recent : List PageId}
  {pg : ℕ → K → PageId} {u : Upsert K V} {root : BeRootNode K} {t : BeLeafNode K V}
  {pins : List (PageId × Option (BeNode K V))} {page : PageId} {s : Option (BeNode K V)}

omit [BoundedOrder K] [Inhabited K] [Inhabited V] in
/-- The leaf has room for the message. -/
theorem performLeafUpsert_spec (hK : Keeps R.ids N A T C mem noFlight header created 1 pg) (hT : A → T ≤ T')
    (hu : u.type ≠ .INVALID) (hpage : pg 0 u.key = page) (ht : mem page = some (.leaf t))
    (hsize : (t.perform u).size ≤ N.LEAF_N) {kept' : Prop}
    (hkept : kept' → kept ∧ (t.writes u = true ∨ mem page = s)) :
    Runs (handler R) (performLeafUpsert u page) ⟨mem, created, header, [(page, s)], recent, kept⟩
      fun b w' => b = true ∧
        AtRest R N A T' (Function.update C u.key (u.effect (C u.key))) header kept' w' := by
  subst hpage
  exact runs_performLeafUpsert hu ht
    ⟨rfl, ⟨1, pg, hK.set_entry le_rfl hT ht hsize⟩, rfl, rfl, rfl, id, hkept⟩

variable (hlim : R.limit = none)
include hlim

/-- A leaf target takes the message, or another attempt is needed. -/
theorem handleLeafTarget_spec (hN : 3 ≤ N.LEAF_N)
    (hK : Keeps R.ids N A T C mem noFlight header created 1 pg) (hT : A → T ≤ T') (hu : u.type ≠ .INVALID)
    (hroot : mem header.rootID = some (.root root)) (hroom : root.size < N.ROOT_N)
    (hpage : pg 0 u.key = page) (ht : mem page = some (.leaf t)) (exclusiveMode : Bool)
    (hp : pins = (page, mem page) :: if exclusiveMode then [(header.rootID, mem header.rootID)] else []) :
    Runs (handler R) (handleLeafTarget N O u exclusiveMode header.rootID
        (lowerBound root.pivots root.size u.key) false page t)
      ⟨mem, created, header, pins, recent, kept⟩ fun b w' =>
        b = false ∧ exclusiveMode = false ∧ GivenUp mem created header kept w' ∨
        b = true ∧ AtRest R N A T' (Function.update C u.key (u.effect (C u.key))) header
          (kept ∧ ¬ FullWith N t u) w' := by
  obtain ⟨t', ht', hok, -⟩ := hK.inv.leaf_page u.key
  obtain rfl : t' = t := by
    rw [hpage, ht] at ht'
    simpa using ht'.symm
  obtain ⟨root', hroot', hrok, -⟩ := hK.inv.root_page u.key
  obtain rfl : root' = root := by simpa using hroot'.symm.trans hroot
  have hroot1 : page ≠ header.rootID := by
    rw [← hpage, ← hK.inv.routed.top u.key]
    exact hK.inv.routed.page_ne (by omega) le_rfl (by omega)
  simp only [handleLeafTarget, Prog.bind_def, Prog.pure_def]
  refine runs_check (fun _ => decide_eq_true hok.size_le) ?_
  split
  next hfull =>
    cases exclusiveMode with
    | false =>
      subst hp
      refine runs_unpin_head (by rw [ht]; rfl) (.inr rfl) (runs_ret ?_)
      exact .inl ⟨rfl, rfl, _, rfl⟩
    | true =>
      have hsize := hfull.2
      have hwork : KeysSorted Upsert.key [u] := List.pairwise_singleton _ _
      simp only [Bool.not_true, Bool.false_eq_true, if_false]
      refine runs_medianKeyOf hok.sorted hwork (Nat.le_add_left _ _) fun mid x y hcut => ?_
      have hlen : [u].length = 1 := rfl
      obtain ⟨hmid, hup⟩ := hK.inv.cut_keys (v := [u]) (show mem (pg 0 u.key) = some (.leaf t') by rw [hpage, ht])
        hwork (by simp) hcut (by omega)
      set L := O.memory (R.ids created) with hL
      obtain ⟨hfl, hfr⟩ := fits_halves N L hok.sorted hcut (by omega)
      have hhalves := halves_of_cut hok.sorted L mid
      obtain ⟨hfreshm, -⟩ := hK.inv.fresh_mem R.ids_inj le_rfl
      have hfresh : ∀ h ≤ 1, ∀ k, pg h k ≠ R.ids created := fun h hh k =>
        hK.inv.fresh_page R.ids_inj le_rfl hh k
      have hqr : page ≠ R.ids created := hpage ▸ hfresh 0 (by omega) u.key
      have hrc : header.rootID ≠ R.ids created := hK.inv.routed.top u.key ▸ hfresh 1 le_rfl u.key
      have hK' := hK.split_target_leaf R.ids_inj hroot hrok hroom (by rw [hpage, ht]) hmid hup hok.sorted
        hfl.size_le hfr.size_le
      rw [hpage] at hK'
      subst hp
      refine runs_splitLeafNode ⟨_, List.mem_cons_self⟩ hfreshm ?_ hlim ht (by omega) ?_
      · simp [hqr, hrc]
      refine runs_asRoot (n := root') ?_ (.inl ?_) (runs_write ?_ ?_)
      · rw [Function.update_of_ne hroot1.symm, Function.update_of_ne hrc, hroot]
      · exact ⟨mem header.rootID, by simp⟩
      · exact ⟨mem header.rootID, by simp⟩
      refine runs_unpin_third hrc.symm hroot1 (by simp) (.inl rfl) ?_
      have hl : Function.update (Function.update (Function.update mem (R.ids created)
          (some (.leaf (t'.rightHalf L mid)))) page (some (.leaf (t'.leftHalf mid)))) header.rootID
          (some (.root (root'.insertPivot (lowerBound root'.pivots root'.size u.key) mid (R.ids created))))
          page = some (.leaf (t'.leftHalf mid)) := by
        rw [Function.update_of_ne hroot1, Function.update_self]
      have hr : Function.update (Function.update (Function.update mem (R.ids created)
          (some (.leaf (t'.rightHalf L mid)))) page (some (.leaf (t'.leftHalf mid)))) header.rootID
          (some (.root (root'.insertPivot (lowerBound root'.pivots root'.size u.key) mid (R.ids created))))
          (R.ids created) = some (.leaf (t'.rightHalf L mid)) := by
        rw [Function.update_of_ne hrc.symm, Function.update_of_ne hqr.symm, Function.update_self]
      -- a half that stays as it is has the pair
      have hwrites : ∀ half : BeLeafNode K V, half.get u.key = t'.get u.key → ¬ FullWith N t' u →
          half.writes u = true := by
        intro half hget hnot
        by_contra hw
        refine hnot ⟨hfull.1, hfull.2, ?_⟩
        simp only [BeLeafNode.writes, hfull.1, Bool.not_eq_true, Bool.not_eq_false', Bool.and_eq_true,
          decide_eq_true_eq] at hw
        rw [← hget, get_of_found hw.1, hw.2]
      split
      next hle =>
        rw [List.filter_cons, if_pos (by simpa using hle)] at hfl
        refine runs_unpin_head (by rw [hr]; rfl) (.inl rfl) ?_
        refine (performLeafUpsert_spec hK' hT hu ?_ hl hfl.2.size_le fun hk => ⟨hk.1, .inl ?_⟩).mono
          fun b w' h => .inr h
        · rw [Routed.splitPg_left hle, hpage]
        · exact hwrites _ (hhalves.left_get u.key hle) hk.2
      next hlt =>
        have hlt := not_le.mp hlt
        rw [List.filter_cons, if_pos (by simpa using hlt)] at hfr
        refine runs_unpin_second hqr.symm (by rw [hl]; rfl) (.inl rfl) ?_
        refine (performLeafUpsert_spec hK' hT hu ?_ hr hfr.2.size_le fun hk => ⟨hk.1, .inl ?_⟩).mono
          fun b w' h => .inr h
        · exact Routed.splitPg_right hpage hlt
        · exact hwrites _ (hhalves.right_get u.key hlt) hk.2
  next hfull =>
    have hroom' : (t'.perform u).size ≤ N.LEAF_N := by
      have hle := hok.size_le
      by_cases hi : u.type = .INSERT
      · have hne : t'.size ≠ N.LEAF_N := fun h => hfull ⟨hi, h⟩
        have := perform_size_le (n := t') (u := u)
        omega
      · exact (perform_size_of_not_insert hi).trans hle
    have hperform : Runs (handler R) (performLeafUpsert u page)
        ⟨mem, created, header, [(page, mem page)],
          if exclusiveMode then header.rootID :: recent else recent, kept⟩ fun b w' =>
        b = false ∧ exclusiveMode = false ∧ GivenUp mem created header kept w' ∨
        b = true ∧ AtRest R N A T' (Function.update C u.key (u.effect (C u.key))) header
          (kept ∧ ¬ FullWith N t' u) w' :=
      (performLeafUpsert_spec hK hT hu hpage ht hroom' fun hk => ⟨hk.1, .inr rfl⟩).mono
        fun b w' h => .inr h
    cases exclusiveMode with
    | false =>
      subst hp
      exact hperform
    | true =>
      subst hp
      exact runs_unpin_second hroot1 (by rw [hroot]; rfl) (.inr rfl) hperform

end Routine

end BEpsilon.BeTree
