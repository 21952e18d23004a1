import BEpsilon.BTree.Tree

/-!
# BEpsilon.BTree.Leaf — what the operations do to a leaf

The ways in which the operations rewrite a leaf, each as a statement about the map that the leaf
holds: a pair is inserted, a value overwritten, a pair removed, the leaf cut in two halves.
-/

namespace BEpsilon.BTree

open Slots

variable {K V : Type} [LinearOrder K] {N : NodeSizes}

/-- The leaf `t'` holds what `t` holds, except that it says `o` about `key`. -/
structure LeafSet (N : NodeSizes) (t t' : BLeafNode K V) (key : K) (o : Option V) : Prop where
  ok : LeafOk N t'
  keys : ∀ x ∈ Fanout.pivotSet t'.keys t'.size, x = key ∨ x ∈ Fanout.pivotSet t.keys t.size
  get : ∀ k, t'.get k = if k = key then o else t.get k

/-- Index of `key` in a leaf. -/
def BLeafNode.index (t : BLeafNode K V) (key : K) : ℕ := lowerBound t.keys t.size key

theorem LeafOk.get_eq_none {t : BLeafNode K V} (ht : LeafOk N t) {key : K}
    (hk : ¬ (t.index key < t.size ∧ t.keys (t.index key) = key)) : t.get key = none := by
  rw [BLeafNode.get, lookup_eq_none_iff ht.sorted, ← ht.sorted.found_iff]
  exact hk

theorem LeafOk.get_eq_some {t : BLeafNode K V} {key : K}
    (hk : t.index key < t.size ∧ t.keys (t.index key) = key) :
    t.get key = some (t.values (t.index key)) := by
  rw [BLeafNode.get, lookup]
  exact if_pos hk

theorem LeafSet.same {t : BLeafNode K V} (ht : LeafOk N t) (key : K) :
    LeafSet N t t key (t.get key) :=
  ⟨ht, fun _ hx => .inr hx, fun k => by split <;> simp_all⟩

theorem LeafSet.insertPair {t : BLeafNode K V} (ht : LeafOk N t) {key : K} {value : V}
    (hk : ¬ (t.index key < t.size ∧ t.keys (t.index key) = key)) (hroom : t.size < N.LEAF_N) :
    LeafSet N t (t.insertPair (t.index key) key value) key (some value) := by
  have hnot : ¬ ∃ i < t.size, t.keys i = key := by rw [← ht.sorted.found_iff]; exact hk
  refine ⟨⟨ht.sorted.insertAt hnot, hroom⟩, fun x hx => ?_, lookup_insertAt ht.sorted hnot⟩
  exact (Fanout.mem_pivotSet_insertPivot (lowerBound_le _ _ _)).mp hx

theorem LeafSet.overwrite {t : BLeafNode K V} (ht : LeafOk N t) {key : K} {value : V}
    (hk : t.index key < t.size ∧ t.keys (t.index key) = key) :
    LeafSet N t { t with values := Function.update t.values (t.index key) value } key
      (some value) := by
  refine ⟨⟨ht.sorted, ht.size_le⟩, fun x hx => .inr hx, fun k => ?_⟩
  have h := @lookup_update _ _ _ t.keys t.values _ value ht.sorted _ hk.1 k
  rw [hk.2] at h
  exact h

theorem LeafSet.erasePair {t : BLeafNode K V} (ht : LeafOk N t) {key : K}
    (hk : t.index key < t.size ∧ t.keys (t.index key) = key) :
    LeafSet N t ⟨eraseAt t.keys t.size (t.index key), eraseAt t.values t.size (t.index key),
      t.size - 1⟩ key none := by
  refine ⟨⟨ht.sorted.eraseAt hk.1, le_trans (Nat.sub_le _ _) ht.size_le⟩, fun x hx => .inr ?_,
    fun k => ?_⟩
  · obtain ⟨j, hj, rfl⟩ := hx
    simp only at hj ⊢
    rcases lt_or_ge j (t.index key) with hl | hl
    · exact ⟨j, by omega, (eraseAt_lt hl).symm⟩
    · exact ⟨j + 1, by omega, (eraseAt_ge hl (by omega)).symm⟩
  · have h := @lookup_eraseAt _ _ _ t.keys t.values _ ht.sorted _ hk.1 k
    rw [hk.2] at h
    exact h

/-! ### The halves of a full leaf -/

section Halves

variable [Inhabited K] [Inhabited V]

/-- The right half that `splitLeafNode` makes. -/
def BLeafNode.rightHalf (t : BLeafNode K V) : BLeafNode K V :=
  { keys := moveTo t.keys ((t.size - 1) / 2 + 1) t.size (fun _ => default) 0
    values := moveTo t.values ((t.size - 1) / 2 + 1) t.size (fun _ => default) 0
    size := t.size / 2 }

/-- The left half: the same slots with a smaller size. -/
def BLeafNode.leftHalf (t : BLeafNode K V) : BLeafNode K V := { t with size := t.size - t.size / 2 }

/-- The key at which `splitLeafNode` cuts. -/
def BLeafNode.middleKey (t : BLeafNode K V) : K := t.keys ((t.size - 1) / 2)

/-- The two halves of a leaf hold the pairs up to the middle key and those above it. -/
structure Halves (N : NodeSizes) (t : BLeafNode K V) : Prop where
  left_ok : LeafOk N t.leftHalf
  right_ok : LeafOk N t.rightHalf
  left_keys : ∀ x ∈ Fanout.pivotSet t.leftHalf.keys t.leftHalf.size,
    x ∈ Fanout.pivotSet t.keys t.size ∧ x ≤ t.middleKey
  right_keys : ∀ x ∈ Fanout.pivotSet t.rightHalf.keys t.rightHalf.size,
    x ∈ Fanout.pivotSet t.keys t.size ∧ t.middleKey < x
  left_get : ∀ k ≤ t.middleKey, t.leftHalf.get k = t.get k
  right_get : ∀ k, t.middleKey < k → t.rightHalf.get k = t.get k
  left_lt : t.leftHalf.size < N.LEAF_N
  right_lt : t.rightHalf.size < N.LEAF_N

variable {t : BLeafNode K V}

omit [LinearOrder K] in
theorem BLeafNode.rightHalf_keys {i : ℕ} (hi : i < t.rightHalf.size) :
    t.rightHalf.keys i = t.keys ((t.size - 1) / 2 + 1 + i) := by
  simp only [rightHalf] at hi ⊢
  rw [moveTo_zero (by omega)]

theorem LeafOk.halves (ht : LeafOk N t) (h2 : 2 ≤ t.size) : Halves N t := by
  have hle := ht.size_le
  have hsize : t.rightHalf.size = t.size - ((t.size - 1) / 2 + 1) := by
    simp only [BLeafNode.rightHalf]; omega
  have hleft : t.leftHalf.size = (t.size - 1) / 2 + 1 := by
    simp only [BLeafNode.leftHalf]; omega
  refine ⟨⟨ht.sorted.mono (by omega), by omega⟩, ⟨?_, by omega⟩, ?_, ?_, fun k hk => ?_,
    fun k hk => ?_, by omega, by omega⟩
  · rw [hsize]
    exact ht.sorted.moveTo
  · rintro x ⟨i, hi, rfl⟩
    rw [hleft] at hi
    refine ⟨⟨i, by omega, rfl⟩, ?_⟩
    rcases (Nat.lt_succ_iff.mp hi).lt_or_eq with hl | rfl
    · exact (ht.sorted _ _ hl (by omega)).le
    · exact le_rfl
  · rintro x ⟨i, hi, rfl⟩
    rw [BLeafNode.rightHalf_keys hi]
    exact ⟨⟨_, by omega, rfl⟩, ht.sorted _ _ (by omega) (by omega)⟩
  · rw [BLeafNode.get, BLeafNode.get, hleft]
    refine lookup_take ht.sorted (by omega) fun j hj hjn e => ?_
    have := ht.sorted ((t.size - 1) / 2) j (by omega) hjn
    rw [e] at this
    exact absurd hk (not_le.mpr this)
  · rw [BLeafNode.get, BLeafNode.get, hsize]
    refine lookup_drop ht.sorted fun j hj hjn e => ?_
    rcases (Nat.lt_succ_iff.mp hj).lt_or_eq with hl | rfl
    · have := ht.sorted j ((t.size - 1) / 2) hl (by omega)
      rw [e] at this
      exact absurd hk this.asymm
    · exact absurd e hk.ne

omit [Inhabited K] [Inhabited V] in
/-- Where a key stands in the left half. -/
theorem LeafOk.index_left (h2 : 2 ≤ t.size) {key : K} (hk : key ≤ t.middleKey) :
    t.leftHalf.index key = t.index key ∧ t.index key < t.leftHalf.size := by
  have hlt : t.index key ≤ (t.size - 1) / 2 := by
    by_contra hc
    exact absurd (lt_of_lt_lowerBound (not_le.mp hc)) (not_lt.mpr hk)
  have hsize : t.leftHalf.size = (t.size - 1) / 2 + 1 := by
    simp only [BLeafNode.leftHalf]; omega
  have hge : t.index key < t.size → key ≤ t.keys (t.index key) := le_of_lowerBound_lt
  have heq : t.leftHalf.index key = t.index key :=
    lowerBound_eq_iff.mpr ⟨by omega, fun j hj => lt_of_lt_lowerBound hj, fun _ => hge (by omega)⟩
  exact ⟨heq, by omega⟩

/-- Where a key stands in the right half. -/
theorem LeafOk.index_right (ht : LeafOk N t) (h2 : 2 ≤ t.size) {key : K} (hk : t.middleKey < key) :
    t.rightHalf.index key = t.index key - t.leftHalf.size ∧ t.leftHalf.size ≤ t.index key := by
  have hgt : (t.size - 1) / 2 < t.index key :=
    Fanout.lt_lowerBound ht.sorted (by omega) hk
  have hleft : t.leftHalf.size = (t.size - 1) / 2 + 1 := by
    simp only [BLeafNode.leftHalf]; omega
  have hsize : t.rightHalf.size = t.size - ((t.size - 1) / 2 + 1) := by
    simp only [BLeafNode.rightHalf]; omega
  have h := Fanout.lowerBound_drop (p := fun _ => default) ht.sorted
    (s := (t.size - 1) / 2) (by omega) hk
  refine ⟨?_, by omega⟩
  rw [hleft, BLeafNode.index, hsize]
  exact h

/-- The slot a key has in the whole leaf still holds the key that the right half has for it. -/
theorem LeafOk.keys_index_right (ht : LeafOk N t) (h2 : 2 ≤ t.size) {key : K}
    (hk : t.middleKey < key) (hlt : t.rightHalf.index key < t.rightHalf.size) :
    t.keys (t.index key) = t.rightHalf.keys (t.rightHalf.index key) := by
  obtain ⟨hidx, hge⟩ := ht.index_right h2 hk
  have hleft : t.leftHalf.size = t.size - t.size / 2 := rfl
  rw [BLeafNode.rightHalf_keys hlt, hidx]
  congr 1
  omega

end Halves

/-! ### Rewriting the leaf on the path of a key -/

section Put

variable {ids : ℕ → PageId} {mem : PageId → Option (BNode K V)} {header : Header} {created H : ℕ}
  {pg : ℕ → K → PageId} {L : K → Option V}

theorem TreeInv.put (hT : TreeInv ids N mem header created H pg L) {key : K} {o : Option V}
    {t t' : BLeafNode K V} (ht : mem (pg 0 key) = some (.leaf t)) (hs : LeafSet N t t' key o) :
    TreeInv ids N (Function.update mem (pg 0 key) (some (.leaf t'))) header created H pg
      (Function.update L key o) := by
  obtain ⟨t₀, ht₀, -, hkeys⟩ := hT.leaf_page key
  obtain rfl := by simpa using ht₀.symm.trans ht
  have hq : Function.update mem (pg 0 key) (some (.leaf t')) (pg 0 key) = some (.leaf t') := by simp
  refine hT.set_leaf hq (fun id hid => by simp [hid]) hs.ok
    (fun x hx => ?_) (fun k hk => ?_) fun k hk => ?_
  · rcases hs.keys x hx with rfl | hx
    · rfl
    · exact hkeys x hx
  · rw [hs.get, Function.update_apply, hT.data k _ (by rw [hk]; exact ht)]
  · rw [Function.update_apply, if_neg fun e => hk (by rw [e])]

end Put

end BEpsilon.BTree
