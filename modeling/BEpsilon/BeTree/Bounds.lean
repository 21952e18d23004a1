import BEpsilon.BeTree.Inner

/-!
# BEpsilon.BeTree.Bounds — indices and children that the pure routines hand on

What holds of `removeMessages`, `splitMap` and `insertPivots` on any node, sorted or not: a message map has
only indices of children, and a node gets no children but those it had and those of the new pivots.
-/

namespace BEpsilon.BeTree

open Slots Keyed

variable {K V : Type} [LinearOrder K]

section Blocks

variable {childOf : K → ℕ} {P : ℕ → Prop}

theorem scanBlocks_index {l : List (Upsert K V)} (hP : ∀ k, P (childOf k)) {key : K} {i : ℕ}
    {block : List (Upsert K V)} (hi : P i) : ∀ b ∈ scanBlocks childOf key i block l, P b.childIndex := by
  induction l generalizing key i block with
  | nil =>
    intro b hb
    obtain rfl := List.mem_singleton.mp hb
    exact hi
  | cons u l ih =>
    intro b hb
    rw [scanBlocks] at hb
    split at hb
    · rcases List.mem_cons.mp hb with rfl | hb
      · exact hi
      · exact ih (hP u.key) b hb
    · exact ih hi b hb

theorem messageBlocks_index {l : List (Upsert K V)} (hP : ∀ k, P (childOf k)) :
    ∀ b ∈ messageBlocks childOf l, P b.childIndex := by
  cases l with
  | nil =>
    intro b hb
    cases hb
  | cons u l => exact scanBlocks_index hP (hP u.key)

/-- Messages that all go to one child are one block. -/
theorem length_messageBlocks_le {l : List (Upsert K V)} {i : ℕ} (hi : ∀ k, childOf k = i) :
    (messageBlocks childOf l).length ≤ 1 := by
  have hscan : ∀ (l : List (Upsert K V)) key block, (scanBlocks childOf key i block l).length = 1 := by
    intro l
    induction l with
    | nil =>
      intro key block
      rfl
    | cons u l ih =>
      intro key block
      rw [scanBlocks, if_neg fun h => h.2 (hi u.key)]
      exact ih key _
  cases l with
  | nil => exact Nat.zero_le 1
  | cons u l =>
    rw [messageBlocks, hi]
    exact (hscan l _ _).le

omit [LinearOrder K] in
/-- The map gets one entry for each reference, with the index of a block. -/
theorem collectBlocks_bounds {needed maxRemoved collected : ℕ} {blocks : List (Block K V)}
    {result : MessageMap K V} {refs : List ℕ} (hblocks : ∀ b ∈ blocks, P b.childIndex)
    (hresult : ∀ x ∈ result, P x.1) :
    (∀ x ∈ (collectBlocks needed maxRemoved collected blocks result refs).2, P x.1) ∧
      (collectBlocks needed maxRemoved collected blocks result refs).2.length ≤ result.length + refs.length := by
  induction refs generalizing collected blocks result with
  | nil => exact ⟨hresult, Nat.le_add_right _ _⟩
  | cons ref refs ih =>
    rw [collectBlocks]
    split
    · split
      next => exact ⟨hresult, Nat.le_add_right _ _⟩
      next b hb =>
        have hin := List.mem_of_getElem? hb
        set removed := if maxRemoved < collected + b.messages.length then maxRemoved - collected
          else b.messages.length
        have hblocks' : ∀ b' ∈ blocks.set ref { b with messages := b.messages.drop removed }, P b'.childIndex := by
          intro b' hb'
          rcases List.mem_or_eq_of_mem_set hb' with hb' | rfl
          · exact hblocks b' hb'
          · exact hblocks b hin
        have hresult' : ∀ x ∈ result ++ [(b.childIndex, b.messages.take removed)], P x.1 := by
          intro x hx
          rcases List.mem_append.mp hx with hx | hx
          · exact hresult x hx
          · obtain rfl := List.mem_singleton.mp hx
            exact hblocks b hin
        obtain ⟨h₁, h₂⟩ := @ih (collected + removed) _ _ hblocks' hresult'
        refine ⟨h₁, h₂.trans ?_⟩
        rw [List.length_append, List.length_singleton, List.length_cons]
        omega
    · exact ⟨hresult, Nat.le_add_right result.length _⟩

end Blocks

section RemoveMessages

variable [Add V] {N : NodeSizes} {O : Unspecified K V} {n : BeInnerNode K V} {us : List (Upsert K V)} {m : ℕ}

theorem size_removeMessages : (n.removeMessages N O us m).1.size = n.size := rfl

theorem removeMessages_index_le : ∀ x ∈ (n.removeMessages N O us m).2, x.1 ≤ n.size :=
  (collectBlocks_bounds (P := fun i => i ≤ n.size)
    (messageBlocks_index (P := fun i => i ≤ n.size) fun k => lowerBound_le _ _ k)
    fun _ hx => absurd hx List.not_mem_nil).1

/-- A node without pivots has one child. -/
theorem length_removeMessages_le (hn : n.size = 0) : (n.removeMessages N O us m).2.length ≤ 1 := by
  have hone : (messageBlocks (lowerBound n.pivots n.size) (n.allMessages us)).length ≤ 1 :=
    length_messageBlocks_le (i := 0) fun k => Nat.le_zero.mp (hn ▸ lowerBound_le n.pivots n.size k)
  refine (collectBlocks_bounds (P := fun _ => True) (fun _ _ => trivial) fun _ _ => trivial).2.trans ?_
  rw [(O.largestFirst_perm _).length_eq, List.length_range, List.length_map, List.length_nil]
  omega

end RemoveMessages

omit [LinearOrder K] in
/-- Both parts of a map have only indices of children of their halves. -/
theorem splitMap_index_le {map : MessageMap K V} {size n : ℕ} (hmap : ∀ x ∈ map, x.1 ≤ n) :
    (∀ x ∈ (splitMap size map).1, x.1 ≤ size) ∧ ∀ x ∈ (splitMap size map).2, x.1 ≤ n - size - 1 := by
  refine ⟨?_, ?_⟩
  · intro x hx
    simpa using (List.mem_filter.mp hx).2
  · intro x hx
    obtain ⟨y, hy, rfl⟩ := List.mem_map.mp hx
    have h₁ := hmap y (List.mem_filter.mp hy).1
    have h₂ : size < y.1 := by simpa using (List.mem_filter.mp hy).2
    dsimp only
    omega

section InsertPivots

variable {P : PageId → Prop}

omit [LinearOrder K] in
/-- What is true of the children up to `lastFirst`, of those behind the gap for the new ones, and of the
new ones, is true of all afterwards. -/
theorem insertPivotsFrom_children {ts : List (ℕ × K × PageId)} {pivots : Slots K} {children : Slots PageId}
    {lastFirst size : ℕ} (hsorted : ts.Pairwise fun a b => b.1 ≤ a.1) (hle : ∀ t ∈ ts, t.1 ≤ lastFirst)
    (hnew : ∀ t ∈ ts, P t.2.2) (hlow : ∀ j ≤ lastFirst, P (children j))
    (hhigh : ∀ j, lastFirst + ts.length < j → j ≤ size → P (children j)) :
    ∀ j ≤ size, P ((insertPivotsFrom pivots children lastFirst ts).2 j) := by
  induction ts generalizing pivots children lastFirst with
  | nil =>
    intro j hj
    rcases Nat.lt_or_ge lastFirst j with h | h
    · exact hhigh j h hj
    · exact hlow j h
  | cons t ts ih =>
    obtain ⟨index, key, child⟩ := t
    have hidx : index ≤ lastFirst := hle (index, key, child) List.mem_cons_self
    obtain ⟨hfirst, hrest⟩ := List.pairwise_cons.mp hsorted
    have hlen : ((index, key, child) :: ts).length = ts.length + 1 := List.length_cons
    rw [hlen] at hhigh
    rw [insertPivotsFrom]
    refine ih hrest (fun t ht => hfirst t ht) (fun t ht => hnew t (List.mem_cons_of_mem _ ht)) ?_ ?_
    · intro j hj
      rw [Function.update_of_ne (by omega), moveBackward, moveTo_apply, if_neg (by omega)]
      exact hlow j (by omega)
    · intro j hj hjs
      by_cases hat : j = index + (ts.length + 1)
      · subst hat
        rw [Function.update_self]
        exact hnew (index, key, child) List.mem_cons_self
      · rw [Function.update_of_ne hat, moveBackward, moveTo_apply]
        split
        · exact hlow _ (by omega)
        · exact hhigh j (by omega) hjs

omit [LinearOrder K] in
/-- The children of a node that takes pivots. -/
theorem insertPivots_children {n : BeInnerNode K V} {new : List (ℕ × K × PageId)} (hn : ∀ i ≤ n.size, P (n.children i))
    (hle : ∀ t ∈ new, t.1 ≤ n.size) (hnew : ∀ t ∈ new, P t.2.2) :
    ∀ i ≤ (n.insertPivots (sortPivots new)).size, P ((n.insertPivots (sortPivots new)).children i) := by
  have hperm := sortPivots_perm new
  have hsize : (n.insertPivots (sortPivots new)).size = n.size + (sortPivots new).length := rfl
  intro i hi
  refine insertPivotsFrom_children ?_ ?_ ?_ hn ?_ i hi
  · exact List.pairwise_reverse.mpr (sortPivots_le new)
  · intro t ht
    exact hle t (hperm.mem_iff.mp (List.mem_reverse.mp ht))
  · intro t ht
    exact hnew t (hperm.mem_iff.mp (List.mem_reverse.mp ht))
  · intro j hj hjs
    rw [List.length_reverse] at hj
    omega

end InsertPivots

end BEpsilon.BeTree
