import BEpsilon.BeTree.Split
import BEpsilon.BeTree.Grow

/-!
# BEpsilon.BeTree.Keeps — a tree and what it holds

`Keeps` puts the invariant of the tree and its content together; the content is known where the
assumption `A` holds, the structure in any case.  One lemma for each step of the routines.
-/

namespace BEpsilon.BeTree

open Slots Keyed

variable {K V : Type} [LinearOrder K] [Add V]

/-- The pages are a Bε-tree, which holds the map `C` if `A` is true. -/
structure Keeps (ids : ℕ → PageId) (N : NodeSizes) (A : Prop) (T : K → ℕ) (C : K → Option V)
    (mem : PageId → Option (BeNode K V)) (F : PageId → List (Upsert K V)) (header : Header)
    (created H : ℕ) (pg : ℕ → K → PageId) : Prop where
  inv : TreeInv ids N mem F header created H pg
  held : A → Held T mem F pg H C

/-- A sorted list of messages merged with another one may wait where both may. -/
theorem Waiting.merge {pg : ℕ → K → PageId} {h : ℕ} {q : PageId} {as bs : List (Upsert K V)}
    (ha : KeysSorted Upsert.key as) (hb : KeysSorted Upsert.key bs) (hwa : Waiting pg h q as)
    (hwb : Waiting pg h q bs) : Waiting pg h q (mergeUpserts as bs) where
  distinct := (mergeUpserts_sorted ha hb).distinct
  range u hu := by
    rcases mergeUpserts_key hu with ⟨a, ha', e⟩ | ⟨b, hb', e⟩
    · rw [← e]
      exact hwa.range a ha'
    · rw [← e]
      exact hwb.range b hb'
  valid _ hu := mergeUpserts_valid hwa.valid hwb.valid hu

namespace Keeps

variable {ids : ℕ → PageId} {N : NodeSizes} {A : Prop} {T : K → ℕ} {C : K → Option V}
  {mem mem' : PageId → Option (BeNode K V)} {F F' : PageId → List (Upsert K V)} {header : Header}
  {created H : ℕ} {pg : ℕ → K → PageId}

/-- A child is split. -/
theorem split (hK : Keeps ids N A T C mem F header created H pg) (hinj : ∀ i j, ids i = ids j → i = j)
    {h : ℕ} {k₀ mid : K} (hS : NodeSplit ids N mem mem' F F' created H pg h k₀ mid) :
    Keeps ids N A T C mem' F' header (created + 1) H
      (Routed.splitPg pg h (pg h k₀) (ids created) mid) where
  inv := hS.treeInv hK.inv hinj
  held a := (hK.held a).congr (hS.levels_eq hK.inv hinj) (hS.leafEntry_eq hK.inv hinj)

/-- An inner node learns pivots that the tree already knows about. -/
theorem set_pivots (hK : Keeps ids N A T C mem F header created H pg) {g : ℕ} (hg : g + 1 < H) (k₀ : K)
    {n n' : BeInnerNode K V} (hn : mem (pg (g + 1) k₀) = some (.inner n))
    (hview : (BeNode.inner n').view = (BeNode.inner n).view) (hok : InnerNodeOk N n')
    (hu : n'.upserts.toList = n.upserts.toList) :
    Keeps ids N A T C (Function.update mem (pg (g + 1) k₀) (some (.inner n'))) F header created H pg := by
  have hw : ∀ id, waitingAt (Function.update mem (pg (g + 1) k₀) (some (.inner n'))) F id =
      waitingAt mem F id := by
    intro id
    by_cases e : id = pg (g + 1) k₀
    · rw [e, waitingAt_inner hn, waitingAt_inner (Function.update_self _ _ _), hu]
    · rw [waitingAt, waitingAt, Function.update_of_ne e]
  refine ⟨hK.inv.set_inner hg hn hview hok ?_ fun _ _ => List.Subperm.refl _, fun a =>
    (hK.held a).congr ?_ (hK.inv.leafEntry_set_inner hg.le k₀ _)⟩
  · rw [hu, ← waitingAt_inner hn]
    exact hK.inv.waiting (g + 1) hg.le k₀
  · funext h k
    exact levels_congr fun _ => hw _

section Push

variable {g : ℕ} {k₀ : K} {n n' : BeInnerNode K V} {v : List (Upsert K V)}

variable (F' k₀ n') in
/-- Messages of a page go to a child, which keeps some of the merged messages in its buffer; the others
stay in flight. -/
theorem push (hK : Keeps ids N A T C mem F header created H pg)
    (hg : g + 2 ≤ H)
    (hn : mem (pg (g + 1) k₀) = some (.inner n)) (hFq : F (pg (g + 1) k₀) = [])
    (hview : (BeNode.inner n').view = (BeNode.inner n).view) (hok : InnerNodeOk N n')
    (hvs : KeysSorted Upsert.key v) (hrange : ∀ u ∈ v, pg (g + 1) u.key = pg (g + 1) k₀)
    (hmerge : (F' (pg (g + 1) k₀) ++ n'.upserts.toList).Perm (mergeUpserts n.upserts.toList v))
    (hFc : (F (pg (g + 2) k₀)).Perm (v ++ F' (pg (g + 2) k₀)))
    (hF : ∀ id, id ≠ pg (g + 1) k₀ → id ≠ pg (g + 2) k₀ → F' id = F id) :
    Keeps ids N A T C (Function.update mem (pg (g + 1) k₀) (some (.inner n'))) F' header created H pg := by
  have hns : KeysSorted Upsert.key n.upserts.toList := (hK.inv.nodes _ (by omega) k₀ _ hn).2.upserts
  have hwn : Waiting pg (g + 1) (pg (g + 1) k₀) n.upserts.toList := by
    have h := hK.inv.waiting (g + 1) (by omega) k₀
    rwa [waitingAt_inner hn, hFq, List.nil_append] at h
  have hwv : Waiting pg (g + 1) (pg (g + 1) k₀) v := by
    refine ⟨hvs.distinct, hrange, fun u hu => (hK.inv.waiting (g + 2) hg k₀).valid u ?_⟩
    exact List.mem_append_left _ (hFc.mem_iff.mpr (List.mem_append_left _ hu))
  refine ⟨hK.inv.set_inner (by omega) hn hview hok ((hwn.merge hns hvs hwv).perm hmerge) fun id hid => ?_,
    fun a => ?_⟩
  · by_cases hc : id = pg (g + 2) k₀
    · rw [hc]
      exact (List.sublist_append_right _ _).subperm.trans hFc.symm.subperm
    · rw [hF id hid hc]
  · exact (hK.held a).push (Nat.le_add_left 1 g) hg
      (hK.inv.levels_push hg hn hFq hns hvs hrange hmerge hFc hF)
      (hK.inv.leafEntry_set_inner (by omega) k₀ _)

/-- A new message comes to an inner node below the root node, which keeps some of the merged messages in
its buffer; the others are in flight afterwards. -/
theorem post (hK : Keeps ids N A T C mem noFlight header created (g + 2) pg) {u : Upsert K V} {T' : K → ℕ}
    (hA : A → Newest T u T')
    (hu : u.type ≠ .INVALID) (hn : mem (pg (g + 1) u.key) = some (.inner n))
    (hview : (BeNode.inner n').view = (BeNode.inner n).view) (hok : InnerNodeOk N n')
    (hw : Waiting pg (g + 1) (pg (g + 1) u.key) (F' (pg (g + 1) u.key) ++ n'.upserts.toList))
    (hmerge : A → (F' (pg (g + 1) u.key) ++ n'.upserts.toList).Perm (mergeUpserts n.upserts.toList [u]))
    (hF : ∀ id, id ≠ pg (g + 1) u.key → F' id = []) :
    Keeps ids N A T' (Function.update C u.key (u.effect (C u.key)))
      (Function.update mem (pg (g + 1) u.key) (some (.inner n'))) F' header created (g + 2) pg := by
  have hns : KeysSorted Upsert.key n.upserts.toList := (hK.inv.nodes _ (by omega) _ _ hn).2.upserts
  refine ⟨hK.inv.set_inner (by omega) hn hview hok hw fun id hid => by rw [hF id hid],
    fun a => ?_⟩
  obtain ⟨hlt, hle, hT⟩ := hA a
  have hH := hK.held a
  refine (hH.mono hT).post (Nat.le_add_left 1 g) (by omega) (by omega) ⟨rfl, hu, hle⟩
    (fun h m hm => ?_) (fun h hh => ?_)
    (hK.inv.levels_post (by omega) hn rfl hns (hmerge a) hF) (hK.inv.leafEntry_set_inner (by omega) _ _)
  · exact lt_of_le_of_lt (hH.ordered.all_good h _ m hm).stamp_le hlt
  · exact hK.inv.levels_top (by omega) _

end Push

section Leaf

variable {t : BeLeafNode K V} {u : Upsert K V}

variable (F') in
/-- A message in flight is applied to its leaf. -/
theorem settle (hK : Keeps ids N A T C mem F header created H pg) (hH : 1 ≤ H)
    (ht : mem (pg 0 u.key) = some (.leaf t)) (hsize : (t.perform u).size ≤ N.LEAF_N)
    (hFc : (F (pg 1 u.key)).Perm (u :: F' (pg 1 u.key))) (hF : ∀ id, id ≠ pg 1 u.key → F' id = F id) :
    Keeps ids N A T C (Function.update mem (pg 0 u.key) (some (.leaf (t.perform u)))) F' header created
      H pg := by
  obtain ⟨t', ht', hok, hkeys⟩ := hK.inv.leaf_page u.key
  obtain rfl : t' = t := by simpa using ht'.symm.trans ht
  have hset := perform_spec hok.sorted u
  refine ⟨hK.inv.set_leaf ⟨hset.sorted, hsize⟩ (fun x hx => ?_) fun id => ?_, fun a => ?_⟩
  · rcases hset.keys x hx with rfl | hx
    · rfl
    · exact hkeys x hx
  · by_cases hc : id = pg 1 u.key
    · rw [hc]
      exact (List.sublist_cons_self _ _).subperm.trans hFc.symm.subperm
    · rw [hF id hc]
  · have hone : hasMessage [u] u.key = true := hasMessage_iff.mpr ⟨u, by simp, rfl⟩
    have hbefore : levels mem F pg H 1 u.key = some u := by
      rw [hK.inv.seek_before (v := [u]) hH rfl hFc hone, seek_cons, if_pos rfl]
    refine (hK.held a).settle hH (hK.inv.levels_settle hH hFc hF) ?_
    rw [leafEntry_set_leaf ht hset]
    funext k
    rw [Levels.settle]
    by_cases hk : k = u.key
    · subst hk
      rw [Function.update_self, if_pos (by simp), hbefore, leafEntry_of_leaf ht]
      rfl
    · rw [Function.update_of_ne hk, if_neg (by simpa using hk)]

/-- A message is applied to a leaf above which no message for its key waits. -/
theorem set_entry (hK : Keeps ids N A T C mem noFlight header created H pg) (hH : H ≤ 1) {T' : K → ℕ}
    (hT : A → T ≤ T') (ht : mem (pg 0 u.key) = some (.leaf t)) (hsize : (t.perform u).size ≤ N.LEAF_N) :
    Keeps ids N A T' (Function.update C u.key (u.effect (C u.key)))
      (Function.update mem (pg 0 u.key) (some (.leaf (t.perform u)))) noFlight header created H pg := by
  obtain ⟨t', ht', hok, hkeys⟩ := hK.inv.leaf_page u.key
  obtain rfl : t' = t := by simpa using ht'.symm.trans ht
  have hset := perform_spec hok.sorted u
  have hnew : TreeInv ids N (Function.update mem (pg 0 u.key) (some (.leaf (t'.perform u)))) noFlight header
      created H pg := hK.inv.set_leaf ⟨hset.sorted, hsize⟩
        (fun x hx => (hset.keys x hx).elim (fun e => by rw [e]) (hkeys x)) fun id => List.Subperm.refl _
  have hnone : ∀ {mem : PageId → Option (BeNode K V)}, TreeInv ids N mem noFlight header created H pg →
      ∀ h k, levels mem noFlight pg H h k = none := by
    intro mem hI h k
    rcases Nat.eq_zero_or_pos h with rfl | hpos
    · exact hI.levels_zero k
    · exact hI.levels_top (by omega) k
  refine ⟨hnew, fun a => ((hK.held a).mono (hT a)).set_entry (fun h => hnone hK.inv h _) ?_ ?_⟩
  · funext h k
    rw [hnone hnew, hnone hK.inv]
  · rw [leafEntry_set_leaf ht hset, leafEntry_of_leaf ht]

end Leaf

end Keeps

end BEpsilon.BeTree
