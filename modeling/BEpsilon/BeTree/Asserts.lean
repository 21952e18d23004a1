import BEpsilon.BeTree.Inner

/-!
# BEpsilon.BeTree.Asserts — the asserts of the pure routines

A range with strictly increasing keys passes `std::is_sorted` and `std::adjacent_find`; so
`removeMessages` passes its asserts on a sorted buffer and sorted messages.  `insertPivots` passes its
asserts when the node has room and each new pivot lies strictly inside the range of another child.
-/

namespace BEpsilon.BeTree

open Slots Keyed

variable {K V : Type} [LinearOrder K] {N : NodeSizes}

/-- A check of neighbours, on a list where it holds of all pairs. -/
theorem all_zip_tail {α : Type} {p : α × α → Bool} {l : List α} (h : l.Pairwise fun a b => p (a, b) = true) :
    (l.zip l.tail).all p = true := by
  induction l with
  | nil => rfl
  | cons a l ih =>
    obtain ⟨ha, hl⟩ := List.pairwise_cons.mp h
    cases l with
    | nil => rfl
    | cons b l =>
      rw [List.tail_cons, List.zip_cons_cons, List.all_cons, ha b List.mem_cons_self, Bool.true_and]
      exact ih hl

section Messages

variable {l as bs additional : List (Upsert K V)}

theorem isSorted_of_keysSorted (h : KeysSorted Upsert.key l) : isSorted l = true := by
  refine all_zip_tail (List.Pairwise.imp (fun {a b} hab => ?_) h)
  have hlt : a.key < b.key := hab
  simp [Upsert.lt, hlt.not_gt, hlt.ne']

theorem noAdjacentKeys_of_keysSorted (h : KeysSorted Upsert.key l) : noAdjacentKeys l = true := by
  refine all_zip_tail (List.Pairwise.imp (fun {a b} hab => ?_) h)
  exact decide_eq_true (ne_of_lt hab)

/-- A merged range is sorted and has no key twice. -/
theorem mergedAsserts [Add V] (ha : KeysSorted Upsert.key as) (hb : KeysSorted Upsert.key bs) :
    (isSorted (mergeUpserts as bs) && noAdjacentKeys (mergeUpserts as bs)) = true := by
  have h := mergeUpserts_sorted ha hb
  rw [isSorted_of_keysSorted h, noAdjacentKeys_of_keysSorted h]
  rfl

variable [Add V] {n n' : BeInnerNode K V} {map : MessageMap K V} {maxRemoved : ℕ}

theorem removeMessagesAsserts_of_sorted (hsort : KeysSorted Upsert.key n.upserts.toList)
    (hadd : KeysSorted Upsert.key additional) (hmax : n.neededSlots N additional ≤ maxRemoved) :
    n.removeMessagesAsserts N additional maxRemoved = true := by
  have hall : KeysSorted Upsert.key (n.allMessages additional) := mergeUpserts_sorted hsort hadd
  rw [BeInnerNode.removeMessagesAsserts, decide_eq_true hmax, isSorted_of_keysSorted hsort,
    isSorted_of_keysSorted hadd, isSorted_of_keysSorted hall, noAdjacentKeys_of_keysSorted hall]
  rfl

theorem Divided.asserts (h : Divided N n n' additional maxRemoved map) : n'.removedAsserts map = true := by
  have hvec : (map.all fun e => isSorted e.2) = true :=
    List.all_eq_true.mpr fun e he => isSorted_of_keysSorted (h.vectors e he).2.1
  rw [BeInnerNode.removedAsserts, decide_eq_true h.nodup, hvec, isSorted_of_keysSorted h.sorted]
  rfl

end Messages

section Pivots

variable {n : BeInnerNode K V} {new ts : List (ℕ × K × PageId)} {l : ℕ}

omit [LinearOrder K] in
/-- The loop stays within the arrays when the indices decrease. -/
theorem insertPivotsFromAsserts_of_desc (hlt : ∀ t ∈ ts, t.1 ≤ l) (hdesc : ts.Pairwise fun a b => b.1 < a.1)
    (hroom : l + ts.length ≤ N.INNER_N) : insertPivotsFromAsserts N l ts = true := by
  induction ts generalizing l with
  | nil => rfl
  | cons t ts ih =>
    obtain ⟨index, key, child⟩ := t
    obtain ⟨hlower, hdesc⟩ := List.pairwise_cons.mp hdesc
    have hindex : index ≤ l := hlt _ List.mem_cons_self
    rw [List.length_cons] at hroom
    rw [insertPivotsFromAsserts, decide_eq_true (by omega), decide_eq_true (by omega),
      ih (fun t ht => (hlower t ht).le) hdesc (by omega)]
    rfl

/-- The new pivots increase with their indices. -/
theorem newPivot_lt {piv : Slots K} {size : ℕ} {a b : ℕ × K × PageId} (ha : NewPivot piv size a)
    (hb : NewPivot piv size b) (hab : a.1 < b.1) : a.2.1 < b.2.1 := by
  have hle : b.1 ≤ size := hb.1 ▸ lowerBound_le _ _ _
  have hbelow : piv a.1 < b.2.1 := lt_of_lt_lowerBound (n := size) (hb.1.symm ▸ hab)
  exact (ha.2 (by omega)).trans hbelow

theorem newPivots_increase (hok : ∀ t ∈ ts, NewPivot n.pivots n.size t) (hsort : ts.Pairwise fun a b => a.1 < b.1) :
    (ts.zip ts.tail).all (fun (a, b) => a.1 < b.1 && a.2.1 < b.2.1) = true := by
  refine all_zip_tail (List.Pairwise.imp_of_mem (fun {a b} ha hb hab => ?_) hsort)
  simp [hab, newPivot_lt (hok a ha) (hok b hb) hab]

theorem insertPivotsAsserts_of_room (hok : ∀ t ∈ new, NewPivot n.pivots n.size t)
    (hidx : (new.map Prod.fst).Nodup) (hroom : n.size + new.length ≤ N.INNER_N) :
    n.insertPivotsAsserts N (sortPivots new) = true := by
  have hp := sortPivots_perm new
  have hsort := sortPivots_sorted hidx
  have hmem : ∀ t ∈ sortPivots new, NewPivot n.pivots n.size t := fun t ht => hok t (hp.mem_iff.mp ht)
  have hzip := newPivots_increase hmem hsort
  have hloop : insertPivotsFromAsserts N n.size (sortPivots new).reverse = true := by
    refine insertPivotsFromAsserts_of_desc (fun t ht => ?_) (List.pairwise_reverse.mpr hsort) ?_
    · rw [← (hmem t (List.mem_reverse.mp ht)).1]
      exact lowerBound_le _ _ _
    · rwa [List.length_reverse, hp.length_eq]
  rw [BeInnerNode.insertPivotsAsserts, hp.length_eq, decide_eq_true hroom, hzip, hloop]
  rfl

end Pivots

section Maps

variable [Inhabited K] {piv : Slots K} {n s : ℕ} {map : MessageMap K V}

/-- The asserts on the parts of a message map for the halves of a node. -/
theorem splitMapAsserts (h : MapOk N piv n map) (hs : Sorted piv n) (hsn : s < n) (hne : map ≠ []) :
    ((splitMap s map).1.noneTwice && (splitMap s map).2.noneTwice) = true ∧
      (!(splitMap s map).1.isEmpty || !(splitMap s map).2.isEmpty) = true := by
  obtain ⟨hl, hr, -⟩ := splitMap_ok h hs hsn (p := fun _ => default)
  refine ⟨?_, ?_⟩
  · rw [MessageMap.noneTwice, MessageMap.noneTwice, decide_eq_true hl.nodup, decide_eq_true hr.nodup]
    rfl
  · obtain ⟨e, he⟩ := List.exists_mem_of_ne_nil _ hne
    by_cases hes : e.1 ≤ s
    · have hmem : e ∈ (splitMap s map).1 := List.mem_filter.mpr ⟨he, decide_eq_true hes⟩
      rw [List.isEmpty_eq_false_iff.mpr (List.ne_nil_of_mem hmem)]
      rfl
    · have hmem : (e.1 - s - 1, e.2) ∈ (splitMap s map).2 :=
        List.mem_map_of_mem (List.mem_filter.mpr ⟨he, decide_eq_true (not_le.mp hes)⟩)
      rw [List.isEmpty_eq_false_iff.mpr (List.ne_nil_of_mem hmem), Bool.not_false, Bool.or_true]

end Maps

end BEpsilon.BeTree
