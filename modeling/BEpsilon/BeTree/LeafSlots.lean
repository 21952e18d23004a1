import BEpsilon.BeTree.Leaf

/-!
# BEpsilon.BeTree.LeafSlots — which slots a flush into a leaf looks at

The arrays of a leaf have `LEAF_N` slots, and the routines index them without a check.  For each routine
the slots that it reads or writes are listed: a bounded search looks at live slots only, the estimate at
the first key at most, the median search at the two neighbours of each cut, a split at the moved slots, and
a message at the slots from its key on.
-/

namespace BEpsilon.BeTree

open Slots Keyed

variable {K V : Type} [LinearOrder K] {N : NodeSizes} {s : ℕ}

/-- The slots of a leaf that the estimate looks at for a message; the key is compared only when it is the
first one. -/
def BeLeafNode.estimateSlots (t : BeLeafNode K V) (u : Upsert K V) : List ℕ :=
  List.range t.size ++ if t.index u.key = 0 ∧ 0 < t.size then [t.index u.key] else []

theorem lt_of_mem_estimateSlots {t : BeLeafNode K V} {u : Upsert K V} (h : s ∈ t.estimateSlots u) :
    s < t.size := by
  rcases List.mem_append.mp h with h | h
  · exact List.mem_range.mp h
  · split at h
    next hf =>
      rw [List.mem_singleton.mp h, hf.1]
      exact hf.2
    next => simp at h

/-! ### The median search -/

/-- The slots on the two sides of a cut of an input with `size` keys. -/
def cutSlots (size part : ℕ) : List ℕ :=
  (if part = 0 then [] else [part - 1]) ++ if size ≤ part then [] else [part]

theorem lt_of_mem_cutSlots {size part : ℕ} (hp : part ≤ size) (h : s ∈ cutSlots size part) : s < size := by
  rcases List.mem_append.mp h with h | h
  · split at h
    next => simp at h
    next hne =>
      rw [List.mem_singleton.mp h]
      omega
  · split at h
    next => simp at h
    next hlt =>
      rw [List.mem_singleton.mp h]
      omega

section Median

variable [BoundedOrder K]

/-- `medianSearch`, with the cuts of the first input that it tries. -/
def medianTrace (first : Slots K) (firstSize : ℕ) (second : Slots K) (secondSize : ℕ) (low high : ℕ) :
    Option K × List ℕ :=
  if h : low ≤ high then
    let partX := (low + high) / 2
    let partY := (firstSize + secondSize + 1) / 2 - partX
    let leftX := if partX = 0 then ⊥ else first (partX - 1)
    let rightX := if firstSize ≤ partX then ⊤ else first partX
    let leftY := if partY = 0 then ⊥ else second (partY - 1)
    let rightY := if secondSize ≤ partY then ⊤ else second partY
    if leftX ≤ rightY ∧ leftY ≤ rightX then (some (max leftX leftY), [partX])
    else if hx : rightY < leftX then
      let rest := medianTrace first firstSize second secondSize low (partX - 1)
      (rest.1, partX :: rest.2)
    else
      let rest := medianTrace first firstSize second secondSize (partX + 1) high
      (rest.1, partX :: rest.2)
  else (none, [])
termination_by high + 1 - low
decreasing_by
  · have : 0 < partX := by
      by_contra h0
      have hbot : leftX = ⊥ := if_pos (by omega)
      rw [hbot] at hx
      exact not_lt_bot hx
    omega
  · omega

variable {a b : Slots K} {n m low high : ℕ}

/-- The trace is one of `medianSearch`, and no cut is beyond `high`. -/
theorem medianTrace_spec : (medianTrace a n b m low high).1 = medianSearch a n b m low high ∧
    ∀ x ∈ (medianTrace a n b m low high).2, x ≤ high := by
  induction hk : high + 1 - low using Nat.strongRecOn generalizing low high with | ind k ih => ?_
  rw [medianTrace, medianSearch]
  by_cases h : low ≤ high
  · rw [dif_pos h, dif_pos h]
    extract_lets x y leftX rightX leftY rightY left right
    have hx : x ≤ high := by omega
    by_cases hc : leftX ≤ rightY ∧ leftY ≤ rightX
    · rw [if_pos hc, if_pos hc]
      exact ⟨rfl, fun z hz => (List.mem_singleton.mp hz).trans_le hx⟩
    · rw [if_neg hc, if_neg hc]
      by_cases hlt : rightY < leftX
      · rw [dif_pos hlt, dif_pos hlt]
        have hxp : 0 < x := by
          by_contra h0
          rw [show leftX = ⊥ from if_pos (by omega)] at hlt
          exact not_lt_bot hlt
        obtain ⟨he, hle⟩ := ih (x - 1 + 1 - low) (by omega) rfl
        refine ⟨he, fun z hz => ?_⟩
        rcases List.mem_cons.mp hz with rfl | hz
        · exact hx
        · exact (hle z hz).trans (by omega)
      · rw [dif_neg hlt, dif_neg hlt]
        obtain ⟨he, hle⟩ := ih (high + 1 - (x + 1)) (by omega) rfl
        refine ⟨he, fun z hz => ?_⟩
        rcases List.mem_cons.mp hz with rfl | hz
        · exact hx
        · exact hle z hz
  · rw [dif_neg h, dif_neg h]
    exact ⟨rfl, fun z hz => by simp at hz⟩

/-- The slots of the two inputs that `findMedianKey` looks at. -/
def medianSlots (first : Slots K) (firstSize : ℕ) (second : Slots K) (secondSize : ℕ) : List ℕ × List ℕ :=
  let half := (firstSize + secondSize + 1) / 2
  if secondSize < firstSize then
    let cuts := (medianTrace second secondSize first firstSize 0 secondSize).2
    (cuts.flatMap fun partX => cutSlots firstSize (half - partX), cuts.flatMap (cutSlots secondSize))
  else
    let cuts := (medianTrace first firstSize second secondSize 0 firstSize).2
    (cuts.flatMap (cutSlots firstSize), cuts.flatMap fun partX => cutSlots secondSize (half - partX))

/-- The median search looks at items of the inputs only. -/
theorem medianSlots_lt :
    (∀ s ∈ (medianSlots a n b m).1, s < n) ∧ ∀ s ∈ (medianSlots a n b m).2, s < m := by
  unfold medianSlots
  extract_lets half
  split
  next h =>
    refine ⟨?_, ?_⟩
    · intro s hs
      obtain ⟨x, hx, hs⟩ := List.mem_flatMap.mp hs
      have hle := medianTrace_spec.2 x hx
      exact lt_of_mem_cutSlots (by omega) hs
    · intro s hs
      obtain ⟨x, hx, hs⟩ := List.mem_flatMap.mp hs
      exact lt_of_mem_cutSlots (medianTrace_spec.2 x hx) hs
  next h =>
    refine ⟨?_, ?_⟩
    · intro s hs
      obtain ⟨x, hx, hs⟩ := List.mem_flatMap.mp hs
      exact lt_of_mem_cutSlots (medianTrace_spec.2 x hx) hs
    · intro s hs
      obtain ⟨x, hx, hs⟩ := List.mem_flatMap.mp hs
      have hle := medianTrace_spec.2 x hx
      exact lt_of_mem_cutSlots (by omega) hs

end Median

/-! ### Splits and messages -/

/-- The slots that `splitLeafNode` moves, and those of the new leaf that it moves them to. -/
def BeLeafNode.splitSlots (t : BeLeafNode K V) (mid : K) : List ℕ × List ℕ :=
  (List.range' (t.cut mid) (t.size - t.cut mid), List.range (t.size - t.cut mid))

theorem splitSlots_lt {t : BeLeafNode K V} {mid : K} :
    (∀ s ∈ (t.splitSlots mid).1, s < t.size) ∧ ∀ s ∈ (t.splitSlots mid).2, s < t.size := by
  refine ⟨?_, ?_⟩
  · intro s hs
    obtain ⟨-, hlt⟩ := List.mem_range'_1.mp hs
    have hcut : t.cut mid ≤ t.size := min_le_right _ _
    omega
  · intro s hs
    have hlt := List.mem_range.mp hs
    omega

/-- The slots of a leaf that a message looks at or changes, after the search for its key. -/
def BeLeafNode.performSlots (t : BeLeafNode K V) (u : Upsert K V) : List ℕ :=
  let keyIndex := t.index u.key
  match u.type with
  | .DELETE =>
    if t.Found u.key then List.range' keyIndex (t.size - keyIndex)
    else if keyIndex < t.size then [keyIndex] else []
  | .UPDATE => if keyIndex < t.size then [keyIndex] else []
  | .INSERT =>
    -- the slot past the end is looked at and filled
    if t.Found u.key then [keyIndex] else List.range' keyIndex (t.size + 1 - keyIndex)
  | .INVALID => []

/-- A message looks at no slot past the end of a leaf that has room for it. -/
theorem lt_of_mem_performSlots [Add V] {t : BeLeafNode K V} {u : Upsert K V} (hle : t.size ≤ N.LEAF_N)
    (hroom : (t.perform u).size ≤ N.LEAF_N) (hs : s ∈ t.performSlots u) : s < N.LEAF_N := by
  have hindex : t.index u.key ≤ t.size := lowerBound_le _ _ _
  have hone : ∀ {l : List ℕ}, (l = if t.index u.key < t.size then [t.index u.key] else []) → s ∈ l →
      s < N.LEAF_N := by
    intro l hl hs
    rw [hl] at hs
    split at hs
    next hlt =>
      rw [List.mem_singleton.mp hs]
      exact hlt.trans_le hle
    next => simp at hs
  unfold BeLeafNode.performSlots at hs
  cases hu : u.type with
  | DELETE =>
    simp only [hu] at hs
    split at hs
    · obtain ⟨-, hlt⟩ := List.mem_range'_1.mp hs
      omega
    · exact hone rfl hs
  | UPDATE =>
    simp only [hu] at hs
    exact hone rfl hs
  | INSERT =>
    simp only [hu] at hs
    split at hs
    next hf =>
      rw [List.mem_singleton.mp hs]
      exact hf.1.trans_le hle
    next hf =>
      obtain ⟨-, hlt⟩ := List.mem_range'_1.mp hs
      have hsize : (t.perform u).size = t.size + 1 := by
        simp only [BeLeafNode.perform, hu, if_neg hf, BeLeafNode.insertPair]
      omega
  | INVALID =>
    simp only [hu] at hs
    cases hs

end BEpsilon.BeTree
