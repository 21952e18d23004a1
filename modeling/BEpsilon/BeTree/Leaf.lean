import BEpsilon.Lib.Fanout
import BEpsilon.BeTree.Median

/-!
# BEpsilon.BeTree.Leaf — what the messages do to a leaf

`perform` is the leaf after a message, whichever routine applies it.  The halves of a split leaf, and
when the messages of a leaf fit into it: `needToSplit` never estimates too little, and a leaf that is
split at the median key has room for its messages in both halves.
-/

namespace BEpsilon.BeTree

open Slots Keyed

variable {K V : Type} [LinearOrder K] {N : NodeSizes}

/-- What a leaf says about a key. -/
def BeLeafNode.get (n : BeLeafNode K V) (k : K) : Option V := lookup n.keys n.values n.size k

/-- The keys of a leaf. -/
def BeLeafNode.keySet (n : BeLeafNode K V) : Set K := Fanout.pivotSet n.keys n.size

/-- Index of `key` in a leaf. -/
def BeLeafNode.index (n : BeLeafNode K V) (key : K) : ℕ := lowerBound n.keys n.size key

/-- Does the leaf have the key? -/
def BeLeafNode.Found (n : BeLeafNode K V) (key : K) : Prop :=
  n.index key < n.size ∧ n.keys (n.index key) = key

instance (n : BeLeafNode K V) (key : K) : Decidable (n.Found key) := by
  unfold BeLeafNode.Found
  infer_instance

/-- The leaf after a message. -/
def BeLeafNode.perform [Add V] (n : BeLeafNode K V) (u : Upsert K V) : BeLeafNode K V :=
  match u.type with
  | .DELETE => if n.Found u.key then n.erasePair (n.index u.key) else n
  | .UPDATE =>
    if n.Found u.key then n.setValue (n.index u.key) (n.values (n.index u.key) + u.value) else n
  | .INSERT =>
    if n.Found u.key then n.setValue (n.index u.key) u.value
    else n.insertPair (n.index u.key) u.key u.value
  | .INVALID => n

section Perform

variable {n : BeLeafNode K V} {u : Upsert K V} {key k : K} {value : V}

theorem found_iff (hs : Sorted n.keys n.size) : n.Found key ↔ ∃ i < n.size, n.keys i = key :=
  hs.found_iff

theorem get_of_found (h : n.Found key) : n.get key = some (n.values (n.index key)) := by
  rw [BeLeafNode.get, lookup]
  exact if_pos h

theorem get_of_not_found (hs : Sorted n.keys n.size) (h : ¬ n.Found key) : n.get key = none := by
  rw [BeLeafNode.get, lookup_eq_none_iff hs, ← found_iff hs]
  exact h

theorem found_iff_get (hs : Sorted n.keys n.size) : n.Found key ↔ (n.get key).isSome := by
  by_cases h : n.Found key
  · simp [h, get_of_found h]
  · simp [h, get_of_not_found hs h]

/-- The leaf `n'` holds what `n` holds, except that it says `o` about `key`. -/
structure LeafSet (n n' : BeLeafNode K V) (key : K) (o : Option V) : Prop where
  sorted : Sorted n'.keys n'.size
  keys : ∀ x ∈ n'.keySet, x = key ∨ x ∈ n.keySet
  get : ∀ k, n'.get k = if k = key then o else n.get k

theorem LeafSet.same (hs : Sorted n.keys n.size) (key : K) : LeafSet n n key (n.get key) :=
  ⟨hs, fun _ hx => .inr hx, fun k => by split <;> simp_all⟩

theorem LeafSet.insertPair (hs : Sorted n.keys n.size) (hk : ¬ n.Found key) :
    LeafSet n (n.insertPair (n.index key) key value) key (some value) := by
  rw [found_iff hs] at hk
  refine ⟨hs.insertAt hk, fun x hx => ?_, lookup_insertAt hs hk⟩
  exact (Fanout.mem_pivotSet_insertPivot (lowerBound_le _ _ _)).mp hx

theorem LeafSet.setValue (hs : Sorted n.keys n.size) (hk : n.Found key) :
    LeafSet n (n.setValue (n.index key) value) key (some value) := by
  refine ⟨hs, fun x hx => .inr hx, fun k => ?_⟩
  have h := @lookup_update _ _ _ n.keys n.values _ value hs _ hk.1 k
  rw [hk.2] at h
  exact h

theorem LeafSet.erasePair (hs : Sorted n.keys n.size) (hk : n.Found key) :
    LeafSet n (n.erasePair (n.index key)) key none := by
  refine ⟨hs.eraseAt hk.1, fun x hx => .inr ?_, fun k => ?_⟩
  · obtain ⟨j, hj, rfl⟩ := hx
    simp only [BeLeafNode.erasePair] at hj ⊢
    rcases lt_or_ge j (n.index key) with hl | hl
    · exact ⟨j, by omega, (eraseAt_lt hl).symm⟩
    · exact ⟨j + 1, by omega, (eraseAt_ge hl (by omega)).symm⟩
  · have h := @lookup_eraseAt _ _ _ n.keys n.values _ hs _ hk.1 k
    rw [hk.2] at h
    exact h

variable [Add V]

/-- A message changes what the leaf says about its key, as the message says. -/
theorem perform_spec (hs : Sorted n.keys n.size) (u : Upsert K V) :
    LeafSet n (n.perform u) u.key (u.effect (n.get u.key)) := by
  have hsame := LeafSet.same hs u.key
  unfold BeLeafNode.perform Upsert.effect
  cases u.type with
  | DELETE =>
    dsimp only
    split
    next h => exact LeafSet.erasePair hs h
    next h => rwa [get_of_not_found hs h] at hsame
  | UPDATE =>
    dsimp only
    split
    next h =>
      rw [get_of_found h]
      exact LeafSet.setValue hs h
    next h => rwa [get_of_not_found hs h] at hsame ⊢
  | INSERT =>
    dsimp only
    split
    next h => exact LeafSet.setValue hs h
    next h => exact LeafSet.insertPair hs h
  | INVALID => exact hsame

theorem perform_size_of_found (h : n.Found u.key) : (n.perform u).size ≤ n.size := by
  unfold BeLeafNode.perform
  cases u.type <;> simp [h, BeLeafNode.erasePair, BeLeafNode.setValue]

theorem perform_size_delete (ht : u.type = .DELETE) (h : n.Found u.key) :
    (n.perform u).size = n.size - 1 := by
  simp [BeLeafNode.perform, ht, h, BeLeafNode.erasePair]

theorem perform_size_of_not_insert (ht : u.type ≠ .INSERT) : (n.perform u).size ≤ n.size := by
  unfold BeLeafNode.perform
  cases hu : u.type with
  | DELETE =>
    dsimp only
    split
    · exact Nat.sub_le _ _
    · exact le_rfl
  | UPDATE =>
    dsimp only
    split <;> exact le_rfl
  | INSERT => exact absurd hu ht
  | INVALID => exact le_rfl

theorem perform_size_le : (n.perform u).size ≤ n.size + 1 := by
  by_cases ht : u.type = .INSERT
  · simp only [BeLeafNode.perform, ht]
    split
    · exact Nat.le_succ _
    · exact le_rfl
  · exact (perform_size_of_not_insert ht).trans (Nat.le_succ _)

end Perform

/-! ### The halves of a leaf -/

section Halves

variable {n : BeLeafNode K V} {L : Leftover K V} {mid : K}

/-- Where `splitLeafNode` cuts. -/
def BeLeafNode.cut (n : BeLeafNode K V) (mid : K) : ℕ := min (upperBound n.keys n.size mid) n.size

/-- The right half that `splitLeafNode` makes on a page with the memory `L`. -/
def BeLeafNode.rightHalf (n : BeLeafNode K V) (L : Leftover K V) (mid : K) : BeLeafNode K V :=
  { keys := moveTo n.keys (n.cut mid) n.size L.keys 0
    values := moveTo n.values (n.cut mid) n.size L.values 0
    size := n.size - n.cut mid }

/-- The left half: the same slots with a smaller size. -/
def BeLeafNode.leftHalf (n : BeLeafNode K V) (mid : K) : BeLeafNode K V :=
  { n with size := n.size - (n.size - n.cut mid) }

/-- The two halves of a leaf hold the pairs up to the key and those above it. -/
structure Halves (n nl nr : BeLeafNode K V) (mid : K) : Prop where
  left_sorted : Sorted nl.keys nl.size
  right_sorted : Sorted nr.keys nr.size
  left_keys : ∀ x ∈ nl.keySet, x ∈ n.keySet ∧ x ≤ mid
  right_keys : ∀ x ∈ nr.keySet, x ∈ n.keySet ∧ mid < x
  left_get : ∀ k ≤ mid, nl.get k = n.get k
  right_get : ∀ k, mid < k → nr.get k = n.get k

theorem le_of_lt_cut {i : ℕ} (hi : i < n.cut mid) : n.keys i ≤ mid :=
  le_of_lt_upperBound (lt_of_lt_of_le hi (min_le_left _ _))

theorem lt_of_cut_le (hs : Sorted n.keys n.size) {i : ℕ} (hi : n.cut mid ≤ i) (hn : i < n.size) :
    mid < n.keys i := by
  have hub := upperBound_le n.keys n.size mid
  have hcut : n.cut mid = upperBound n.keys n.size mid := min_eq_left hub
  rw [hcut] at hi
  have h := lt_of_upperBound_lt (a := n.keys) (n := n.size) (k := mid) (by omega)
  rcases hi.lt_or_eq with hlt | heq
  · exact h.trans (hs _ _ hlt hn)
  · rwa [heq] at h

theorem size_leftHalf : (n.leftHalf mid).size = n.cut mid := by
  have hle : n.cut mid ≤ n.size := min_le_right _ _
  simp only [BeLeafNode.leftHalf]
  omega

/-- A key up to `mid` has the same place in the left half. -/
theorem index_leftHalf (hs : Sorted n.keys n.size) {key : K} (hk : key ≤ mid) :
    (n.leftHalf mid).index key = n.index key := by
  have hle : n.index key ≤ n.size := lowerBound_le _ _ _
  have hcut : n.index key ≤ n.cut mid := by
    by_contra hc
    have hlt := not_le.mp hc
    exact absurd ((lt_of_lt_lowerBound hlt).trans_le hk) (lt_of_cut_le hs le_rfl (by omega)).asymm
  refine lowerBound_eq_iff.mpr ⟨by rwa [size_leftHalf], fun j hj => lt_of_lt_lowerBound hj, fun hlt => ?_⟩
  rw [size_leftHalf] at hlt
  exact le_of_lowerBound_lt (lt_of_lt_of_le hlt (min_le_right _ _))

theorem cut_le_index {key : K} (hk : mid < key) : n.cut mid ≤ n.index key := by
  by_contra hc
  have hlt := not_le.mp hc
  have hcn : n.cut mid ≤ n.size := min_le_right _ _
  have hkey : key ≤ n.keys (n.index key) := le_of_lowerBound_lt (lt_of_lt_of_le hlt hcn)
  exact absurd hk (hkey.trans (le_of_lt_cut hlt)).not_gt

/-- A key above `mid` has a place in the right half. -/
theorem index_rightHalf {key : K} (hk : mid < key) :
    (n.rightHalf L mid).index key = n.index key - n.cut mid := by
  have hle : n.index key ≤ n.size := lowerBound_le _ _ _
  have hcut := cut_le_index (n := n) hk
  simp only [BeLeafNode.index, BeLeafNode.rightHalf] at hcut hle ⊢
  refine lowerBound_eq_iff.mpr ⟨by omega, fun j hj => ?_, fun hlt => ?_⟩
  · rw [moveTo_zero (by omega)]
    exact lt_of_lt_lowerBound (n := n.size) (by omega)
  · rw [moveTo_zero hlt, Nat.add_sub_cancel' hcut]
    exact le_of_lowerBound_lt (by omega)

theorem halves_of_cut (hs : Sorted n.keys n.size) (L : Leftover K V) (mid : K) :
    Halves n (n.leftHalf mid) (n.rightHalf L mid) mid := by
  have hle : n.cut mid ≤ n.size := min_le_right _ _
  have hleft : (n.leftHalf mid).size = n.cut mid := size_leftHalf
  refine ⟨?_, hs.moveTo, ?_, ?_, fun k hk => ?_, fun k hk => ?_⟩
  · rw [hleft]
    exact hs.mono hle
  · rintro x ⟨i, hi, rfl⟩
    rw [hleft] at hi
    exact ⟨⟨i, by omega, rfl⟩, le_of_lt_cut (n := n) hi⟩
  · rintro x ⟨i, hi, rfl⟩
    simp only [BeLeafNode.rightHalf] at hi ⊢
    rw [moveTo_zero hi]
    exact ⟨⟨_, by omega, rfl⟩, lt_of_cut_le hs (Nat.le_add_right _ _) (by omega)⟩
  · rw [BeLeafNode.get, BeLeafNode.get, hleft]
    refine lookup_take hs hle fun j hj hjn e => ?_
    exact absurd hk (not_le.mpr (e ▸ lt_of_cut_le hs hj hjn))
  · refine lookup_drop hs fun j hj hjn e => ?_
    exact absurd hk (not_lt.mpr (e ▸ le_of_lt_cut hj))

end Halves

/-! ### Messages that fit into a leaf -/

section Fits

variable [Add V] {n t : BeLeafNode K V} {us : List (Upsert K V)}

/-- The leaf never exceeds its capacity while it takes the messages. -/
def LeafFits (N : NodeSizes) : BeLeafNode K V → List (Upsert K V) → Prop
  | n, [] => n.size ≤ N.LEAF_N
  | n, u :: us => n.size ≤ N.LEAF_N ∧ LeafFits N (n.perform u) us

theorem LeafFits.size_le (h : LeafFits N n us) : n.size ≤ N.LEAF_N := by
  cases us with
  | nil => exact h
  | cons u us => exact h.1

/-- Room for every sorted leaf with keys of `S` is room for messages with keys of `S`. -/
theorem fits_of_bound {S : K → Prop}
    (hS : ∀ (c : Slots K) (s : ℕ), Sorted c s → (∀ i < s, S (c i)) → s ≤ N.LEAF_N)
    (hs : Sorted n.keys n.size) (hn : ∀ x ∈ n.keySet, S x) (hus : ∀ u ∈ us, S u.key) :
    LeafFits N n us := by
  induction us generalizing n with
  | nil => exact hS _ _ hs fun i hi => hn _ ⟨i, hi, rfl⟩
  | cons u us ih =>
    have hp := perform_spec hs u
    refine ⟨hS _ _ hs fun i hi => hn _ ⟨i, hi, rfl⟩, ih hp.sorted (fun x hx => ?_)
      fun v hv => hus v (List.mem_cons_of_mem _ hv)⟩
    rcases hp.keys x hx with rfl | hx
    · exact hus u List.mem_cons_self
    · exact hn x hx

/-- Does a message of `needToSplit` count as one for a key that is in the leaf? -/
def countsAsSeen (t : BeLeafNode K V) (seen : List K) (u : Upsert K V) : Bool :=
  seen.contains u.key || (decide (t.index u.key = 0 ∧ 0 < t.size) && t.keys (t.index u.key) = u.key)

/-- The estimate after an insertion or a deletion. -/
def nextSize (t : BeLeafNode K V) (future : ℕ) (seen : List K) (u : Upsert K V) : ℕ :=
  if u.type = .INSERT then future + (if countsAsSeen t seen u then 0 else 1)
  else if 1 ≤ future then future - (if countsAsSeen t seen u then 1 else 0)
  else future

omit [Add V] in
theorem needToSplit_cons (N : NodeSizes) (t : BeLeafNode K V) (us : List (Upsert K V)) (future : ℕ)
    (seen : List K) {u : Upsert K V} (hu : ¬ (u.type ≠ .INSERT ∧ u.type ≠ .DELETE)) :
    ∃ seen', (∀ k ∈ seen', k = u.key ∨ k ∈ seen) ∧ needToSplit N t future seen (u :: us) =
      if N.LEAF_N < nextSize t future seen u then true
      else needToSplit N t (nextSize t future seen u) seen' us := by
  refine ⟨if seen.contains u.key then seen else if u.type = .INSERT then u.key :: seen
    else seen.filter (· ≠ u.key), fun k hk => ?_, by rw [needToSplit, if_neg hu]; rfl⟩
  split at hk
  · exact .inr hk
  · split at hk
    · exact List.mem_cons.mp hk
    · exact .inr (List.mem_of_mem_filter hk)

omit [Add V] in
theorem nextSize_le (t : BeLeafNode K V) (future : ℕ) (seen : List K) (u : Upsert K V) :
    nextSize t future seen u ≤ future + 1 := by
  unfold nextSize
  cases countsAsSeen t seen u <;> simp only [Bool.false_eq_true, if_true, if_false] <;> split <;>
    (try split) <;> omega

/-- The estimate covers the leaf after the message, which it was right about before. -/
theorem perform_size_le_nextSize {future : ℕ} {seen : List K} {u : Upsert K V}
    (hu : ¬ (u.type ≠ .INSERT ∧ u.type ≠ .DELETE)) (hseen : u.key ∉ seen)
    (hfound : n.Found u.key ↔ t.Found u.key) (hsize : n.size ≤ future) :
    (n.perform u).size ≤ nextSize t future seen u := by
  -- a key that counts as seen is in the leaf
  have hsee : countsAsSeen t seen u = true → n.Found u.key := by
    intro h
    simp only [countsAsSeen, Bool.or_eq_true, Bool.and_eq_true, decide_eq_true_eq,
      List.contains_iff_mem] at h
    rcases h with h | ⟨⟨h₁, h₂⟩, h₃⟩
    · exact absurd h hseen
    · exact hfound.mpr ⟨h₁ ▸ h₂, h₃⟩
  by_cases hi : u.type = .INSERT
  · rw [nextSize, if_pos hi]
    by_cases hf : n.Found u.key
    · exact ((perform_size_of_found hf).trans hsize).trans (Nat.le_add_right _ _)
    · rw [if_neg fun h => hf (hsee h)]
      exact perform_size_le.trans (Nat.add_le_add_right hsize 1)
  · rw [nextSize, if_neg hi]
    by_cases hf : n.Found u.key
    · rw [perform_size_delete (by_contra fun hd => hu ⟨hi, hd⟩) hf]
      split <;> (try split) <;> omega
    · rw [if_neg fun h => hf (hsee h), Nat.sub_zero, ite_self]
      exact (perform_size_of_not_insert hi).trans hsize

/-- The estimate is never too small: the leaf `n` is what has become of `t`. -/
theorem fits_of_estimate {future : ℕ} {seen : List K} (hs : Sorted n.keys n.size)
    (ht : Sorted t.keys t.size) (hus : KeysSorted Upsert.key us)
    (hseen : ∀ u ∈ us, u.key ∉ seen) (hsame : ∀ u ∈ us, n.get u.key = t.get u.key)
    (hsize : n.size ≤ future) (hfut : future ≤ N.LEAF_N)
    (hneed : needToSplit N t future seen us = false) : LeafFits N n us := by
  induction us generalizing n future seen with
  | nil => exact hsize.trans hfut
  | cons u us ih =>
    obtain ⟨hlt, hus⟩ := keysSorted_cons.mp hus
    have hp := perform_spec hs u
    have hsame' : ∀ v ∈ us, (n.perform u).get v.key = t.get v.key := fun v hv => by
      rw [hp.get, if_neg (hlt v hv).ne']
      exact hsame v (List.mem_cons_of_mem _ hv)
    have hrest : ∀ v ∈ us, v.key ∉ seen := fun v hv => hseen v (List.mem_cons_of_mem _ hv)
    refine ⟨hsize.trans hfut, ?_⟩
    by_cases hu : u.type ≠ .INSERT ∧ u.type ≠ .DELETE
    · rw [needToSplit, if_pos hu] at hneed
      exact ih hp.sorted hus hrest hsame' ((perform_size_of_not_insert hu.1).trans hsize) hfut hneed
    · obtain ⟨seen', hseen', he⟩ := needToSplit_cons N t us future seen hu
      rw [he] at hneed
      by_cases hle : N.LEAF_N < nextSize t future seen u
      · rw [if_pos hle] at hneed
        exact absurd hneed (by simp)
      · rw [if_neg hle] at hneed
        refine ih hp.sorted hus (fun v hv hc => ?_) hsame' ?_ (not_lt.mp hle) hneed
        · rcases hseen' _ hc with e | hc
          · exact (hlt v hv).ne' e
          · exact hrest v hv hc
        · refine perform_size_le_nextSize hu (hseen u List.mem_cons_self) ?_ hsize
          rw [found_iff_get hs, found_iff_get ht, hsame u List.mem_cons_self]

/-- A leaf that does not need to be split has room for its messages. -/
theorem fits_of_needToSplit (hs : Sorted n.keys n.size) (hle : n.size ≤ N.LEAF_N)
    (hus : KeysSorted Upsert.key us) (hneed : needToSplit N n n.size [] us = false) :
    LeafFits N n us :=
  fits_of_estimate hs hs hus (by simp) (fun _ _ => rfl) le_rfl hle hneed

omit [Add V] in
/-- A leaf that needs to be split and its messages are more than fit into a leaf. -/
theorem lt_of_needToSplit {future : ℕ} {seen : List K}
    (hneed : needToSplit N t future seen us = true) : N.LEAF_N < future + us.length := by
  induction us generalizing future seen with
  | nil => simp [needToSplit] at hneed
  | cons u us ih =>
    rw [List.length_cons]
    by_cases hu : u.type ≠ .INSERT ∧ u.type ≠ .DELETE
    · rw [needToSplit, if_pos hu] at hneed
      have := ih hneed
      omega
    · obtain ⟨seen', -, he⟩ := needToSplit_cons N t us future seen hu
      have hstep := nextSize_le t future seen u
      rw [he] at hneed
      by_cases hle : N.LEAF_N < nextSize t future seen u
      · omega
      · rw [if_neg hle] at hneed
        have := ih hneed
        omega

variable [Inhabited K] [Inhabited V] {L : Leftover K V} {mid : K} {x y : ℕ}

/-- The key of the `i`-th message. -/
def keyAt (us : List (Upsert K V)) : Slots K := fun i => (us.getD i default).key

omit [LinearOrder K] [Add V] in
theorem exists_keyAt {u : Upsert K V} (hu : u ∈ us) : ∃ j < us.length, keyAt us j = u.key := by
  obtain ⟨j, hj, rfl⟩ := List.mem_iff_getElem.mp hu
  exact ⟨j, hj, by simp [keyAt, hj]⟩

omit [LinearOrder K] [Add V] in
theorem keyAt_mem {j : ℕ} (hj : j < us.length) : ∃ u ∈ us, u.key = keyAt us j :=
  ⟨us[j], List.getElem_mem hj, by simp [keyAt, hj]⟩

omit [Add V] in
theorem sorted_keyAt (hus : KeysSorted Upsert.key us) : Sorted (keyAt us) us.length := by
  intro i j hij hj
  have h := List.pairwise_iff_getElem.mp hus i j (by omega) hj hij
  simpa [keyAt, hj, show i < us.length by omega] using h

/-- The halves of a leaf that is split at the median key have room for their messages. -/
theorem fits_halves (N : NodeSizes) (L : Leftover K V) (hs : Sorted n.keys n.size)
    (hcut : MedianCut n.keys n.size (keyAt us) us.length mid x y)
    (hsize : n.size + us.length + 1 ≤ 2 * N.LEAF_N + 1) :
    LeafFits N (n.leftHalf mid) (us.filter fun u => u.key ≤ mid) ∧
      LeafFits N (n.rightHalf L mid) (us.filter fun u => mid < u.key) := by
  have hh := halves_of_cut hs L mid
  refine ⟨?_, ?_⟩
  · refine fits_of_bound (S := fun z => z ≤ mid ∧
      ((∃ i < n.size, n.keys i = z) ∨ ∃ j < us.length, keyAt us j = z)) (fun c s hc hk => ?_)
      hh.left_sorted (fun z hz => ?_) fun u hu => ?_
    · exact (hcut.size_le hc hk).trans (by omega)
    · exact ⟨(hh.left_keys z hz).2, .inl (hh.left_keys z hz).1⟩
    · obtain ⟨hu, hle⟩ := List.mem_filter.mp hu
      exact ⟨by simpa using hle, .inr (exists_keyAt hu)⟩
  · refine fits_of_bound (S := fun z => mid < z ∧
      ((∃ i < n.size, n.keys i = z) ∨ ∃ j < us.length, keyAt us j = z)) (fun c s hc hk => ?_)
      hh.right_sorted (fun z hz => ?_) fun u hu => ?_
    · exact (hcut.size_gt_le hc hk).trans (by omega)
    · exact ⟨(hh.right_keys z hz).2, .inl (hh.right_keys z hz).1⟩
    · obtain ⟨hu, hlt⟩ := List.mem_filter.mp hu
      exact ⟨by simpa using hlt, .inr (exists_keyAt hu)⟩

end Fits

/-! ### Slots past the end -/

section PastEnd

variable {n : BeLeafNode K V} {u : Upsert K V} {L : Leftover K V} {key mid : K}

/-- No slot past the end of the leaf holds the key. -/
def BeLeafNode.FreeOf (N : NodeSizes) (n : BeLeafNode K V) (key : K) : Prop :=
  ∀ j, n.size ≤ j → j < N.LEAF_N → n.keys j ≠ key

/-- A key that would come to the end of the leaf is in no slot past the end. -/
def BeLeafNode.Clear (N : NodeSizes) (n : BeLeafNode K V) (key : K) : Prop :=
  n.index key = n.size → n.FreeOf N key

/-- A leaf that can take an INSERT of the key, also after it was split, whatever messages for other keys it takes
before: it has the key, or no slot past its end holds it; and if the key would come to the end of the right half,
the memory of no page that is made from now on holds it either. -/
structure BeLeafNode.Vacant (N : NodeSizes) (memory : ℕ → Leftover K V) (created : ℕ) (n : BeLeafNode K V) (key : K) :
    Prop where
  slots : n.Found key ∨ n.FreeOf N key
  memory : 2 ≤ n.size → n.index key = n.size → ∀ i, created ≤ i → ∀ j < N.LEAF_N, (memory i).keys j ≠ key

theorem index_eq_size_iff : n.index key = n.size ↔ ∀ i < n.size, n.keys i < key := by
  constructor
  · intro h i hi
    have hlt : i < n.index key := h.symm ▸ hi
    exact lt_of_lt_lowerBound hlt
  · intro h
    refine (lowerBound_le _ _ _).eq_of_not_lt fun hlt => ?_
    exact absurd (h _ hlt) (not_lt.mpr (le_of_lowerBound_lt hlt))

/-- The slot that a new key comes to does not hold it yet. -/
theorem BeLeafNode.Clear.slot_ne (h : n.Clear N key) (hf : ¬ n.Found key) (hsize : n.size < N.LEAF_N) :
    n.keys (n.index key) ≠ key := by
  intro e
  have hle : n.index key ≤ n.size := lowerBound_le _ _ _
  rcases hle.lt_or_eq with hlt | heq
  · exact hf ⟨hlt, e⟩
  · exact h heq _ heq.ge (heq ▸ hsize) e

theorem clear_of_freeOf (h : n.Found key ∨ n.FreeOf N key) : n.Clear N key := by
  intro hlast
  rcases h with hf | hfree
  · exact absurd hlast hf.1.ne
  · exact hfree

theorem BeLeafNode.Clear.insertPair (h : n.Clear N key) {i : ℕ} (hi : i ≤ n.size) {k : K} {v : V} :
    (n.insertPair i k v).Clear N key := by
  intro hlast j hj hjN
  rw [index_eq_size_iff] at hlast
  dsimp only [BeLeafNode.insertPair] at hlast hj ⊢
  have hall : ∀ j < n.size, n.keys j < key := by
    intro j hj
    rcases lt_or_ge j i with hji | hij
    · have hslot := hlast j (Nat.lt_succ_of_lt hj)
      rwa [insertAt_lt hji hi] at hslot
    · have hslot := hlast (j + 1) (Nat.succ_lt_succ hj)
      rwa [insertAt_gt (Nat.lt_succ_of_le hij) hj] at hslot
  rw [insertAt_past hi hj]
  exact h (index_eq_size_iff.mpr hall) j (Nat.le_of_succ_le hj) hjN

/-- The last key of the leaf stays behind in its slot; it lies below `key`. -/
theorem BeLeafNode.Clear.erasePair (h : n.Clear N key) {i : ℕ} (hi : i < n.size) (hlt : n.keys i < key) :
    (n.erasePair i).Clear N key := by
  intro hlast j hj hjN
  rw [index_eq_size_iff] at hlast
  dsimp only [BeLeafNode.erasePair] at hlast hj ⊢
  have hall : ∀ j < n.size, n.keys j < key := by
    intro j hj
    rcases lt_trichotomy j i with hji | rfl | hij
    · have hslot := hlast j (by omega)
      rwa [eraseAt_lt hji] at hslot
    · exact hlt
    · have hslot := hlast (j - 1) (by omega)
      rwa [eraseAt_ge (by omega) (by omega), Nat.sub_add_cancel (by omega)] at hslot
  rw [eraseAt_past (by omega)]
  rcases lt_or_ge j n.size with hjn | hjn
  · exact (hall j hjn).ne
  · exact h (index_eq_size_iff.mpr hall) j hjn hjN

/-- A message for a smaller key leaves the slots past the end clear. -/
theorem BeLeafNode.Clear.perform [Add V] (h : n.Clear N key) (hlt : u.key < key) : (n.perform u).Clear N key := by
  unfold BeLeafNode.perform
  cases u.type with
  | DELETE =>
    dsimp only
    split
    next hf => exact h.erasePair hf.1 (hf.2.symm ▸ hlt)
    next => exact h
  | UPDATE =>
    dsimp only
    split <;> exact h
  | INSERT =>
    dsimp only
    split
    next => exact h
    next => exact h.insertPair (lowerBound_le _ _ _)
  | INVALID => exact h

/-- The slots behind the left half hold keys of the right half, and then what they held before. -/
theorem clear_leftHalf (hs : Sorted n.keys n.size) (hk : key ≤ mid) (h : n.Found key ∨ n.FreeOf N key) :
    (n.leftHalf mid).Clear N key := by
  intro hlast j hj hjN
  rw [index_leftHalf hs hk, size_leftHalf] at hlast
  rw [size_leftHalf] at hj
  show n.keys j ≠ key
  rcases lt_or_ge j n.size with hjn | hjn
  · exact (hk.trans_lt (lt_of_cut_le hs hj hjn)).ne'
  · rcases h with hf | hfree
    · have hmid := lt_of_cut_le hs hlast.ge hf.1
      rw [hf.2] at hmid
      exact absurd hmid hk.not_gt
    · exact hfree j hjn hjN

/-- The slots behind the right half hold what the memory of its page held. -/
theorem clear_rightHalf (hk : mid < key) (h : n.index key = n.size → ∀ j < N.LEAF_N, L.keys j ≠ key) :
    (n.rightHalf L mid).Clear N key := by
  intro hlast j hj hjN
  have hcut := cut_le_index (n := n) hk
  have hle : n.index key ≤ n.size := lowerBound_le _ _ _
  rw [index_rightHalf hk] at hlast
  dsimp only [BeLeafNode.rightHalf] at hlast hj ⊢
  rw [moveTo_apply, if_neg (by omega)]
  exact h (by omega) j hjN

end PastEnd

end BEpsilon.BeTree
