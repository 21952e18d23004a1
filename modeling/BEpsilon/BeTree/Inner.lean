import BEpsilon.Lib.Growth
import BEpsilon.BeTree.Blocks
import Mathlib.Data.List.Perm.Subperm

/-!
# BEpsilon.BeTree.Inner — what the routines do to an inner node

`insertPivots` makes the node take the new pivots, one pass over its arrays for all of them.  The halves
of a split inner node have the messages at or below the removed pivot and those above it, and the parts
of a message map fit the halves.
-/

namespace BEpsilon.BeTree

open Slots Keyed Fanout

variable {K V : Type} [LinearOrder K] {N : NodeSizes}

/-! ### New pivots -/

section Pivots

variable {piv q : Slots K} {ch e : Slots PageId} {n n' l : ℕ} {new ts : List (ℕ × K × PageId)}

/-- A new pivot lies strictly inside the range of its child. -/
def NewPivot (piv : Slots K) (n : ℕ) (t : ℕ × K × PageId) : Prop :=
  lowerBound piv n t.2.1 = t.1 ∧ (t.1 < n → t.2.1 < piv t.1)

theorem insertPivotsFrom_grown {pivots : Slots K} {children : Slots PageId}
    (hG : Grown piv ch n new q e n') (hq : Shifted pivots q l ts.length n')
    (he : Shifted children e (l + 1) ts.length (n' + 1)) (hold : ∀ p < l, q p = piv p) (hl : l ≤ n)
    (hdesc : ts.Pairwise fun a b => b.1 < a.1)
    (hlt : ∀ t ∈ ts, t.1 < l ∨ t.1 = l ∧ l = n ∧ n' = n) (hts : ∀ t ∈ ts, NewPivot piv n t)
    (hfresh : ∀ t ∈ ts, t.2.2 ∉ childSet e n') (hdist : (ts.map fun t => t.2.2).Nodup)
    (hnew : ∀ t ∈ ts, ∀ t' ∈ new, t'.1 ≠ t.1) :
    Grown piv ch n (ts.reverse ++ new) (insertPivotsFrom pivots children l ts).1
      (insertPivotsFrom pivots children l ts).2 (n' + ts.length) := by
  induction ts generalizing pivots children q e new n' l with
  | nil =>
    refine hG.congr (fun p hp => hq.done hp) fun p hp => he.done hp
  | cons t ts ih =>
    obtain ⟨index, key, child⟩ := t
    obtain ⟨hlower, hdesc⟩ := List.pairwise_cons.mp hdesc
    obtain ⟨hlb, hup⟩ := hts _ List.mem_cons_self
    have hfr := hfresh _ List.mem_cons_self
    rw [List.map_cons, List.nodup_cons] at hdist
    have hpos := hlt _ List.mem_cons_self
    have hnn' : n ≤ n' := by rw [hG.size]; omega
    dsimp only at hlower hlb hup hfr hdist hpos
    -- up to `index` the array still has the old pivots
    have hidx : ∀ k, lowerBound q n' k = index ↔ lowerBound piv n k = index := by
      intro k
      rw [lowerBound_eq_iff, lowerBound_eq_iff]
      constructor
      · rintro ⟨-, h₁, h₂⟩
        refine ⟨by omega, fun p hp => hold p (by omega) ▸ h₁ p hp, fun hi => ?_⟩
        rw [← hold index (by omega)]
        exact h₂ (by omega)
      · rintro ⟨-, h₁, h₂⟩
        refine ⟨by omega, fun p hp => (hold p (by omega)).symm ▸ h₁ p hp, fun hi => ?_⟩
        rw [hold index (by omega)]
        exact h₂ (by omega)
    have hkey := lowerBound_eq_iff.mp ((hidx key).mpr hlb)
    have hup' : index < n' → key < q index := fun hi => by
      rw [hold index (by omega)]
      exact hup (by omega)
    have hG' := hG.insert (by omega) hkey.2.1 hup' hidx hfr fun t' ht' => hnew _ List.mem_cons_self t' ht'
    have hq' := hq.step (x := key) (i := index) (by omega) (by omega)
    have he' := he.step (x := child) (i := index + 1) (by omega) (by omega)
    have hlen : index + (ts.length + 1) - 1 = index + ts.length := by omega
    have hlen' : index + (ts.length + 1) = index + 1 + ts.length := by omega
    have hlen'' : l + (ts.length + 1) + 1 = l + 1 + (ts.length + 1) := by omega
    have hrest := ih hG' hq' he' (fun p hp => ?_) (by omega) hdesc (fun t ht => .inl (hlower t ht))
      (fun t ht => hts t (List.mem_cons_of_mem _ ht)) (fun t ht hc => ?_) hdist.2 fun t ht t' ht' => ?_
    · rw [insertPivotsFrom, hlen, hlen', hlen'', List.reverse_cons, List.append_assoc,
        List.singleton_append, List.length_cons, show n' + (ts.length + 1) = n' + 1 + ts.length by omega]
      exact hrest
    · rw [insertAt_lt hp (by omega), hold p (by omega)]
    · rcases (mem_childSet_insertPivot (by omega)).mp hc with e | hc
      · exact hdist.1 (List.mem_map.mpr ⟨t, ht, e⟩)
      · exact hfresh t (List.mem_cons_of_mem _ ht) hc
    · rcases List.mem_cons.mp ht' with rfl | ht'
      · exact (hlower t ht).ne'
      · exact hnew t (List.mem_cons_of_mem _ ht) t' ht'

omit [LinearOrder K] in
theorem sortPivots_perm (new : List (ℕ × K × PageId)) : (sortPivots new).Perm new :=
  List.perm_insertionSort _ _

omit [LinearOrder K] in
theorem sortPivots_le (new : List (ℕ × K × PageId)) : (sortPivots new).Pairwise fun a b => a.1 ≤ b.1 := by
  have : Std.Total (fun a b : ℕ × K × PageId => a.1 ≤ b.1) := ⟨fun a b => le_total a.1 b.1⟩
  have : IsTrans (ℕ × K × PageId) (fun a b => a.1 ≤ b.1) := ⟨fun a b c => le_trans⟩
  exact List.pairwise_insertionSort _ _

omit [LinearOrder K] in
theorem sortPivots_sorted (hidx : (new.map Prod.fst).Nodup) :
    (sortPivots new).Pairwise fun a b => a.1 < b.1 := by
  have h₁ := sortPivots_le new
  have h₂ : (sortPivots new).Pairwise fun a b => a.1 ≠ b.1 :=
    List.pairwise_map.mp (((sortPivots_perm new).map Prod.fst).nodup_iff.mpr hidx)
  exact (h₁.and h₂).imp fun h => lt_of_le_of_ne h.1 h.2

/-- The node after `insertPivots` has taken the new pivots. -/
theorem insertPivots_grown {n : BeInnerNode K V} (hs : Sorted n.pivots n.size)
    (hd : Distinct n.children n.size) (hok : ∀ t ∈ new, NewPivot n.pivots n.size t)
    (hidx : (new.map Prod.fst).Nodup) (hfresh : ∀ t ∈ new, t.2.2 ∉ childSet n.children n.size)
    (hdist : (new.map fun t => t.2.2).Nodup) :
    Grown n.pivots n.children n.size new (n.insertPivots (sortPivots new)).pivots
      (n.insertPivots (sortPivots new)).children (n.insertPivots (sortPivots new)).size := by
  have hp := sortPivots_perm new
  have hsort := sortPivots_sorted hidx
  have hmem : ∀ t, t ∈ (sortPivots new).reverse ↔ t ∈ new := fun t => by
    rw [List.mem_reverse, hp.mem_iff]
  have h := insertPivotsFrom_grown (Grown.nil hs hd)
    (Shifted.start n.pivots n.size (sortPivots new).reverse.length)
    (Shifted.start n.children (n.size + 1) _) (fun _ _ => rfl) le_rfl
    (List.pairwise_reverse.mpr hsort) (fun t ht => ?_) (fun t ht => hok t ((hmem t).mp ht))
    (fun t ht => hfresh t ((hmem t).mp ht)) ?_ (by simp)
  · rw [List.reverse_reverse, List.append_nil, List.length_reverse] at h
    exact h.perm hp
  · have h₁ := lowerBound_le n.pivots n.size t.2.1
    rw [(hok t ((hmem t).mp ht)).1] at h₁
    rcases h₁.lt_or_eq with h₁ | h₁
    · exact .inl h₁
    · exact .inr ⟨h₁, rfl, rfl⟩
  · rw [List.map_reverse, List.nodup_reverse, (hp.map _).nodup_iff]
    exact hdist

end Pivots

/-! ### The halves of an inner node -/

section Halves

variable {n : BeInnerNode K V} {L : Leftover K V}

/-- The pivot that `splitInnerNode` removes. -/
def BeInnerNode.middleKey (n : BeInnerNode K V) : K := n.pivots ((n.size - 1) / 2)

/-- How many messages of the buffer stay left. -/
def BeInnerNode.bufferCut (n : BeInnerNode K V) : ℕ :=
  upperBound (fun i => (n.upserts.upserts i).key) n.upserts.size n.middleKey

/-- The right half that `splitInnerNode` makes on a page with the memory `L`. -/
def BeInnerNode.rightHalf (n : BeInnerNode K V) (L : Leftover K V) : BeInnerNode K V :=
  { pivots := dropPiv n.pivots n.size ((n.size - 1) / 2) L.pivots
    children := dropCh n.children n.size ((n.size - 1) / 2) L.children
    size := n.size - ((n.size - 1) / 2 + 1)
    upserts :=
      { upserts := moveTo n.upserts.upserts n.bufferCut n.upserts.size
          (BeInnerNode.fresh L).upserts.upserts 0
        size := n.upserts.size - n.bufferCut } }

/-- The left half: the same slots with smaller sizes. -/
def BeInnerNode.leftHalf (n : BeInnerNode K V) : BeInnerNode K V :=
  { n with size := (n.size - 1) / 2, upserts := { n.upserts with size := n.bufferCut } }

omit [LinearOrder K] in
/-- Where the slots to remove come last, `std::remove_if` has nothing to move. -/
theorem removeIf_suffix {α : Type} {p : α → Bool} {a : Slots α} {n : ℕ}
    (h : ∀ i, (List.range n).findIdx (fun i => p (a i)) < i → i < n → p (a i) = true) :
    removeIf p a n = (a, (List.range n).findIdx fun i => p (a i)) := by
  unfold removeIf
  set first := (List.range n).findIdx fun i => p (a i)
  have hfold : ∀ l : List ℕ, (∀ i ∈ l, p (a i) = true) →
      l.foldl (fun (s : Slots α × ℕ) i =>
        if p (s.1 i) then (s.1, s.2) else (Function.update s.1 s.2 (s.1 i), s.2 + 1)) (a, first) =
        (a, first) := by
    intro l hl
    induction l with
    | nil => rfl
    | cons i l ih =>
      rw [List.foldl_cons, if_pos (hl i List.mem_cons_self)]
      exact ih fun j hj => hl j (List.mem_cons_of_mem _ hj)
  refine hfold _ fun i hi => ?_
  obtain ⟨h₁, h₂⟩ := List.mem_range'_1.mp hi
  exact h i (by omega) (by omega)

theorem keysSorted_toList {b : UpsertBuffer K V} :
    KeysSorted Upsert.key b.toList ↔ Sorted (fun i => (b.upserts i).key) b.size := by
  rw [KeysSorted, UpsertBuffer.toList, Slots.toList, List.pairwise_map, List.pairwise_iff_getElem]
  simp only [List.getElem_range, List.length_range]
  exact ⟨fun h i j hij hj => h i j (by omega) hj hij, fun h i j _ hj hij => h i j hij hj⟩

/-- Above the upper bound every key is above. -/
theorem lt_of_upperBound_le {a : Slots K} {n i : ℕ} {k : K} (hs : Sorted a n)
    (h : upperBound a n k ≤ i) (hi : i < n) : k < a i := by
  have h₁ : k < a (upperBound a n k) := lt_of_upperBound_lt (by omega)
  rcases h.lt_or_eq with hlt | heq
  · exact h₁.trans (hs _ _ hlt hi)
  · rwa [heq] at h₁

theorem removeIf_buffer (hs : KeysSorted Upsert.key n.upserts.toList) :
    removeIf (fun upsert => decide (n.middleKey < upsert.key)) n.upserts.upserts n.upserts.size =
      (n.upserts.upserts, n.bufferCut) := by
  refine removeIf_suffix fun i hi hn => decide_eq_true ?_
  exact lt_of_upperBound_le (keysSorted_toList.mp hs) (le_of_lt hi) hn

/-- The messages of the halves are those of the node, cut at the middle key. -/
theorem toList_halves (hs : KeysSorted Upsert.key n.upserts.toList) :
    n.upserts.toList = n.leftHalf.upserts.toList ++ (n.rightHalf L).upserts.toList ∧
      (∀ u ∈ n.leftHalf.upserts.toList, u.key ≤ n.middleKey) ∧
      ∀ u ∈ (n.rightHalf L).upserts.toList, n.middleKey < u.key := by
  have hcut : n.bufferCut ≤ n.upserts.size := upperBound_le _ _ _
  have hright : (n.rightHalf L).upserts.toList =
      (List.range (n.upserts.size - n.bufferCut)).map fun j => n.upserts.upserts (n.bufferCut + j) := by
    simp only [BeInnerNode.rightHalf, UpsertBuffer.toList, Slots.toList]
    refine List.map_congr_left fun j hj => moveTo_zero (List.mem_range.mp hj)
  have hleft : n.leftHalf.upserts.toList = (List.range n.bufferCut).map n.upserts.upserts := rfl
  refine ⟨?_, fun u hu => ?_, fun u hu => ?_⟩
  · rw [hright, hleft, UpsertBuffer.toList, Slots.toList]
    conv_lhs => rw [← Nat.add_sub_cancel' hcut, List.range_add, List.map_append, List.map_map]
    rfl
  · rw [hleft] at hu
    obtain ⟨i, hi, rfl⟩ := List.mem_map.mp hu
    exact le_of_lt_upperBound (a := fun i => (n.upserts.upserts i).key) (List.mem_range.mp hi)
  · rw [hright] at hu
    obtain ⟨j, hj, rfl⟩ := List.mem_map.mp hu
    have := List.mem_range.mp hj
    exact lt_of_upperBound_le (keysSorted_toList.mp hs) (Nat.le_add_right _ _) (by omega)

end Halves

/-! ### Message maps -/

section Maps

variable {piv : Slots K} {n s : ℕ} {map : MessageMap K V}

/-- The vectors of a message map are what the children of a node may get. -/
structure MapOk (N : NodeSizes) (piv : Slots K) (n : ℕ) (map : MessageMap K V) : Prop where
  nodup : (map.map Prod.fst).Nodup
  vectors : ∀ e ∈ map, e.2 ≠ [] ∧ KeysSorted Upsert.key e.2 ∧ e.2.length ≤ N.MAX_FLUSH_SIZE ∧
    ∀ u ∈ e.2, lowerBound piv n u.key = e.1

/-- The messages of a map. -/
def MessageMap.messages (map : MessageMap K V) : List (Upsert K V) := map.flatMap Prod.snd

theorem MapOk.index_le (h : MapOk N piv n map) {e : ℕ × List (Upsert K V)} (he : e ∈ map) :
    e.1 ≤ n := by
  obtain ⟨hne, -, -, hidx⟩ := h.vectors e he
  obtain ⟨u, hu⟩ := List.exists_mem_of_ne_nil _ hne
  rw [← hidx u hu]
  exact lowerBound_le _ _ _

theorem MapOk.length_le (h : MapOk N piv n map) : map.length ≤ n + 1 := by
  have hsub : (map.map Prod.fst).Subperm (List.range (n + 1)) := by
    refine List.subperm_of_subset h.nodup fun i hi => ?_
    obtain ⟨e, he, rfl⟩ := List.mem_map.mp hi
    exact List.mem_range.mpr (Nat.lt_succ_of_le (h.index_le he))
  simpa using hsub.length_le

theorem MapOk.perm {map' : MessageMap K V} (h : MapOk N piv n map) (hp : map'.Perm map) :
    MapOk N piv n map' :=
  ⟨(hp.map Prod.fst).nodup_iff.mpr h.nodup, fun e he => h.vectors e (hp.mem_iff.mp he)⟩

/-- The parts of a map for the halves of a node that was cut at its pivot `s`. -/
theorem splitMap_ok (h : MapOk N piv n map) (hs : Sorted piv n) (hsn : s < n) {p : Slots K} :
    MapOk N piv s (splitMap s map).1 ∧
      MapOk N (dropPiv piv n s p) (n - (s + 1)) (splitMap s map).2 ∧
      ((splitMap s map).1.messages ++ (splitMap s map).2.messages).Perm map.messages ∧
      (∀ u ∈ (splitMap s map).1.messages, u.key ≤ piv s) ∧
      ∀ u ∈ (splitMap s map).2.messages, piv s < u.key := by
  have hside : ∀ e ∈ map, ∀ u ∈ e.2, (u.key ≤ piv s ↔ e.1 ≤ s) := by
    intro e he u hu
    obtain ⟨-, -, -, hidx⟩ := h.vectors e he
    rw [← hidx u hu]
    constructor
    · intro hk
      rw [← lowerBound_take hsn hk]
      exact lowerBound_le _ _ _
    · intro hk
      by_contra hc
      have := lt_lowerBound hs hsn (not_le.mp hc)
      omega
  have hl : ∀ e, e ∈ (splitMap s map).1 ↔ e ∈ map ∧ e.1 ≤ s := fun e => by
    simp [splitMap]
  have hr : ∀ e, e ∈ (splitMap s map).2 ↔ ∃ e' ∈ map, s < e'.1 ∧ (e'.1 - s - 1, e'.2) = e := fun e => by
    simp only [splitMap, List.mem_map, List.mem_filter, decide_eq_true_eq, and_assoc]
  refine ⟨⟨?_, fun e he => ?_⟩, ⟨?_, fun e he => ?_⟩, ?_, fun u hu => ?_, fun u hu => ?_⟩
  · exact h.nodup.sublist (List.filter_sublist.map _)
  · obtain ⟨he, hes⟩ := (hl e).mp he
    obtain ⟨h₁, h₂, h₃, h₄⟩ := h.vectors e he
    refine ⟨h₁, h₂, h₃, fun u hu => ?_⟩
    rw [lowerBound_take hsn ((hside e he u hu).mpr hes)]
    exact h₄ u hu
  · have hnd : ((map.filter fun e => s < e.1).map Prod.fst).Nodup :=
      h.nodup.sublist (List.filter_sublist.map _)
    rw [splitMap, List.map_map]
    refine List.Nodup.map_on (fun a ha b hb e => ?_) hnd.of_map
    have ha' : s < a.1 := by simpa using (List.mem_filter.mp ha).2
    have hb' : s < b.1 := by simpa using (List.mem_filter.mp hb).2
    simp only [Function.comp_apply] at e
    exact List.inj_on_of_nodup_map hnd ha hb (by omega)
  · obtain ⟨e', he', hlt, rfl⟩ := (hr e).mp he
    obtain ⟨h₁, h₂, h₃, h₄⟩ := h.vectors e' he'
    refine ⟨h₁, h₂, h₃, fun u hu => ?_⟩
    have hk : piv s < u.key := not_le.mp fun hc => absurd ((hside e' he' u hu).mp hc) (by omega)
    rw [lowerBound_drop hs hsn hk, h₄ u hu]
    exact Nat.sub_sub _ _ _ |>.symm
  · have hmap : (splitMap s map).2.messages = (map.filter fun e => s < e.1).flatMap Prod.snd := by
      rw [MessageMap.messages, splitMap, List.flatMap_map]
    rw [hmap, MessageMap.messages, MessageMap.messages, splitMap, ← List.flatMap_append]
    refine List.Perm.flatMap_right _ ?_
    have hf : (map.filter fun e => decide (s < e.1)) = map.filter fun e => !decide (e.1 ≤ s) := by
      refine List.filter_congr fun e _ => ?_
      rw [← decide_not, decide_eq_decide, not_le]
    rw [hf]
    exact List.filter_append_perm _ _
  · obtain ⟨e, he, hu⟩ := List.mem_flatMap.mp hu
    obtain ⟨he, hes⟩ := (hl e).mp he
    exact (hside e he u hu).mpr hes
  · obtain ⟨e, he, hu⟩ := List.mem_flatMap.mp hu
    obtain ⟨e', he', hlt, rfl⟩ := (hr e).mp he
    exact not_le.mp fun hc => absurd ((hside e' he' u hu).mp hc) (by omega)

end Maps

end BEpsilon.BeTree
