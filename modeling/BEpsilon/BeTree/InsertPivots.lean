import BEpsilon.Lib.Growth
import BEpsilon.BeTree.Messages

/-!
# BEpsilon.BeTree.InsertPivots — one backward pass inserts the splits one at a time

`insertPivots` moves each part of the two arrays once, by the number of insertions that are still to come
below it.  The node is the one that inserting the tuples one after another gives, the last one first, so
that each finds its child at the index it was made for: every old pivot and child keeps its place among the
old ones, a new pivot stands where its child was, and the new child is right of it.
-/

namespace BEpsilon.BeTree

open Slots

variable {K V : Type} {N : NodeSizes} {n : BeInnerNode K V} {l : ℕ} {ts new : List (ℕ × K × PageId)}

/-! ### One at a time -/

/-- One split: the pivot at the index of its child, which gets a right neighbour. -/
def BeInnerNode.insertPivot (n : BeInnerNode K V) (t : ℕ × K × PageId) : BeInnerNode K V :=
  { n with
    pivots := insertAt n.pivots n.size t.1 t.2.1
    children := insertAt n.children (n.size + 1) (t.1 + 1) t.2.2
    size := n.size + 1 }

/-- The splits one at a time, the last one first. -/
def BeInnerNode.insertEach (n : BeInnerNode K V) (new : List (ℕ × K × PageId)) : BeInnerNode K V :=
  new.foldr (fun t n => n.insertPivot t) n

@[simp] theorem size_insertPivot (t : ℕ × K × PageId) : (n.insertPivot t).size = n.size + 1 := rfl

theorem size_insertEach (n : BeInnerNode K V) (new : List (ℕ × K × PageId)) :
    (n.insertEach new).size = n.size + new.length := by
  induction new with
  | nil => rfl
  | cons t new ih =>
    rw [BeInnerNode.insertEach, List.foldr_cons, size_insertPivot]
    exact congrArg (· + 1) ih

/-- The loop follows the insertions one at a time: what is left to do is a shift. -/
theorem insertPivotsFrom_each {pivots : Slots K} {children : Slots PageId} {q : BeInnerNode K V}
    (hp : Shifted pivots q.pivots l ts.length q.size)
    (hc : Shifted children q.children (l + 1) ts.length (q.size + 1)) (hl : l ≤ q.size)
    (hlt : ∀ t ∈ ts, t.1 ≤ l) (hdesc : ts.Pairwise fun a b => b.1 < a.1) :
    let q' := ts.foldl BeInnerNode.insertPivot q
    (∀ p < q'.size, (insertPivotsFrom pivots children l ts).1 p = q'.pivots p) ∧
      ∀ p < q'.size + 1, (insertPivotsFrom pivots children l ts).2 p = q'.children p := by
  induction ts generalizing pivots children q l with
  | nil => exact ⟨fun p h => hp.done h, fun p h => hc.done h⟩
  | cons t ts ih =>
    obtain ⟨index, key, child⟩ := t
    obtain ⟨hlower, hdesc⟩ := List.pairwise_cons.mp hdesc
    have hindex : index ≤ l := hlt _ List.mem_cons_self
    have hp' := hp.step (x := key) hindex hl
    have hc' := hc.step (x := child) (i := index + 1) (by omega) (by omega)
    have hlen : index + (ts.length + 1) - 1 = index + ts.length := by omega
    have hlen' : index + (ts.length + 1) = index + 1 + ts.length := by omega
    have hlen'' : l + (ts.length + 1) + 1 = l + 1 + (ts.length + 1) := by omega
    rw [List.foldl_cons, insertPivotsFrom, hlen, hlen', hlen'']
    refine ih (q := q.insertPivot (index, key, child)) hp' hc' ?_ (fun t ht => (hlower t ht).le) hdesc
    rw [size_insertPivot]
    omega

/-- The arrays after the single pass. -/
theorem insertPivots_each (hidx : new.Pairwise fun a b => a.1 < b.1) (hle : ∀ t ∈ new, t.1 ≤ n.size) :
    (∀ p < n.size + new.length, (n.insertPivots new).pivots p = (n.insertEach new).pivots p) ∧
      ∀ p < n.size + new.length + 1, (n.insertPivots new).children p = (n.insertEach new).children p := by
  have h := insertPivotsFrom_each (q := n) (Shifted.start n.pivots n.size new.reverse.length)
    (Shifted.start n.children (n.size + 1) new.reverse.length) le_rfl
    (fun t ht => hle t (List.mem_reverse.mp ht)) (List.pairwise_reverse.mpr hidx)
  rw [List.foldl_reverse] at h
  rw [← size_insertEach n new]
  exact h

/-! ### Where each old and new item stands -/

section Spread

variable {α β : Type}

/-- What stands at the children, in order: `before` a child's new items and `after` them. -/
def spread (m : ℕ) (before after : ℕ → List α) (f : β → α) (new : List (ℕ × β)) : List α :=
  (List.range m).flatMap fun i => before i ++ (new.filter (·.1 = i)).map (fun t => f t.2) ++ after i

/-- One more item below the others is put between what stands before it and the rest. -/
theorem spread_cons (before after : ℕ → List α) (f : β → α) {m : ℕ} {t : ℕ × β} {new : List (ℕ × β)}
    (ht : t.1 < m) (hlow : ∀ t' ∈ new, t.1 < t'.1) :
    ∃ rest, spread m before after f new =
        (List.range t.1).flatMap (fun i => before i ++ after i) ++ before t.1 ++ rest ∧
      spread m before after f (t :: new) =
        (List.range t.1).flatMap (fun i => before i ++ after i) ++ before t.1 ++ f t.2 :: rest := by
  obtain ⟨d, rfl⟩ := Nat.exists_eq_add_of_lt ht
  have hnone : ∀ i ≤ t.1, new.filter (·.1 = i) = [] := fun i hi =>
    List.filter_eq_nil_iff.mpr fun t' ht' => by simpa using (by have := hlow t' ht'; omega : t'.1 ≠ i)
  have hlist : List.range (t.1 + d + 1) = List.range t.1 ++ t.1 :: (List.range d).map (t.1 + 1 + ·) := by
    rw [show t.1 + d + 1 = t.1 + 1 + d by omega, List.range_add, List.range_succ, List.append_assoc,
      List.singleton_append]
  have hlow' : ∀ l : List (ℕ × β), (∀ i < t.1, l.filter (·.1 = i) = []) →
      (List.range t.1).flatMap (fun i => before i ++ (l.filter (·.1 = i)).map (fun t => f t.2) ++ after i) =
        (List.range t.1).flatMap fun i => before i ++ after i := by
    intro l h
    refine List.flatMap_congr fun i hi => ?_
    rw [h i (List.mem_range.mp hi), List.map_nil, List.append_nil]
  refine ⟨after t.1 ++ ((List.range d).map (t.1 + 1 + ·)).flatMap fun i =>
    before i ++ (new.filter (·.1 = i)).map (fun t => f t.2) ++ after i, ?_, ?_⟩
  · rw [spread, hlist, List.flatMap_append, List.flatMap_cons, hlow' new fun i hi => hnone i hi.le,
      hnone t.1 le_rfl, List.map_nil, List.append_nil]
    simp only [List.append_assoc]
  · have hcons : ∀ i < t.1, (t :: new).filter (·.1 = i) = [] := fun i hi => by
      rw [List.filter_cons_of_neg (by simpa using hi.ne'), hnone i hi.le]
    have hself : (t :: new).filter (·.1 = t.1) = [t] := by
      rw [List.filter_cons_of_pos (by simp), hnone t.1 le_rfl]
    have htail : ((List.range d).map (t.1 + 1 + ·)).flatMap (fun i =>
          before i ++ ((t :: new).filter (·.1 = i)).map (fun t => f t.2) ++ after i) =
        ((List.range d).map (t.1 + 1 + ·)).flatMap fun i =>
          before i ++ (new.filter (·.1 = i)).map (fun t => f t.2) ++ after i := by
      refine List.flatMap_congr fun i hi => ?_
      obtain ⟨j, -, rfl⟩ := List.mem_map.mp hi
      rw [List.filter_cons_of_neg (by simpa using (by omega : t.1 ≠ t.1 + 1 + j))]
    rw [spread, hlist, List.flatMap_append, List.flatMap_cons, hlow' _ hcons, hself, htail]
    simp only [List.map_cons, List.map_nil, List.append_assoc, List.cons_append, List.nil_append]

theorem insertIdx_append_of_length {p s : List α} {i : ℕ} {x : α} (h : p.length = i) :
    (p ++ s).insertIdx i x = p ++ x :: s := by
  subst h
  induction p with
  | nil => rw [List.nil_append, List.nil_append, List.length_nil, List.insertIdx_zero]
  | cons y p ih => rw [List.cons_append, List.length_cons, List.insertIdx_succ_cons, ih, List.cons_append]

end Spread

/-- The pivots: in front of the pivot of a child stands the one that the child was split at. -/
def BeInnerNode.pivotsWith (n : BeInnerNode K V) (new : List (ℕ × K × PageId)) : List K :=
  spread (n.size + 1) (fun _ => []) (fun i => if i < n.size then [n.pivots i] else []) Prod.fst new

/-- The children: right of each child stands the one it was split into. -/
def BeInnerNode.childrenWith (n : BeInnerNode K V) (new : List (ℕ × K × PageId)) : List PageId :=
  spread (n.size + 1) (fun i => [n.children i]) (fun _ => []) Prod.snd new

theorem toList_pivots_insertEach (hidx : new.Pairwise fun a b => a.1 < b.1) (hle : ∀ t ∈ new, t.1 ≤ n.size) :
    toList (n.insertEach new).pivots (n.insertEach new).size = n.pivotsWith new := by
  induction new with
  | nil =>
    have hsplit : n.pivotsWith [] = (List.range n.size).flatMap (fun i => [n.pivots i]) := by
      rw [BeInnerNode.pivotsWith, spread, List.range_succ, List.flatMap_append]
      simp only [List.flatMap_singleton, lt_irrefl, if_false, List.filter_nil, List.map_nil, List.append_nil,
        List.nil_append]
      refine List.flatMap_congr fun i hi => if_pos (List.mem_range.mp hi)
    rw [hsplit, ← List.map_eq_flatMap]
    rfl
  | cons t new ih =>
    obtain ⟨hlow, hidx⟩ := List.pairwise_cons.mp hidx
    have ht : t.1 ≤ n.size := hle t List.mem_cons_self
    have hrec := ih hidx fun t' ht' => hle t' (List.mem_cons_of_mem _ ht')
    obtain ⟨rest, h₁, h₂⟩ := spread_cons (fun _ => [])
      (fun i => if i < n.size then [n.pivots i] else []) Prod.fst (Nat.lt_succ_of_le ht) hlow
    have hlen : ((List.range t.1).flatMap (fun i => [] ++ if i < n.size then [n.pivots i] else []) ++
        []).length = t.1 := by
      rw [List.append_nil, List.flatMap_congr (g := fun i => [n.pivots i]) fun i hi => by
        rw [List.nil_append, if_pos (by have := List.mem_range.mp hi; omega)], ← List.map_eq_flatMap,
        List.length_map, List.length_range]
    have hstep : toList (n.insertEach (t :: new)).pivots (n.insertEach (t :: new)).size =
        (toList (n.insertEach new).pivots (n.insertEach new).size).insertIdx t.1 t.2.1 :=
      toList_insertAt (show t.1 ≤ (n.insertEach new).size by rw [size_insertEach]; omega)
    rw [hstep, hrec, BeInnerNode.pivotsWith, BeInnerNode.pivotsWith, h₁, h₂, insertIdx_append_of_length hlen]

theorem toList_children_insertEach (hidx : new.Pairwise fun a b => a.1 < b.1)
    (hle : ∀ t ∈ new, t.1 ≤ n.size) :
    toList (n.insertEach new).children ((n.insertEach new).size + 1) = n.childrenWith new := by
  induction new with
  | nil =>
    have hsplit : n.childrenWith [] = (List.range (n.size + 1)).flatMap fun i => [n.children i] := by
      rw [BeInnerNode.childrenWith, spread]
      simp only [List.filter_nil, List.map_nil, List.append_nil]
    rw [hsplit, ← List.map_eq_flatMap]
    rfl
  | cons t new ih =>
    obtain ⟨hlow, hidx⟩ := List.pairwise_cons.mp hidx
    have ht : t.1 ≤ n.size := hle t List.mem_cons_self
    have hrec := ih hidx fun t' ht' => hle t' (List.mem_cons_of_mem _ ht')
    obtain ⟨rest, h₁, h₂⟩ := spread_cons (fun i => [n.children i])
      (fun _ => []) Prod.snd (Nat.lt_succ_of_le ht) hlow
    have hlen : ((List.range t.1).flatMap (fun i => [n.children i] ++ []) ++ [n.children t.1]).length =
        t.1 + 1 := by
      simp only [List.append_nil]
      rw [← List.map_eq_flatMap, List.length_append, List.length_map, List.length_range,
        List.length_singleton]
    have hstep : toList (n.insertEach (t :: new)).children ((n.insertEach (t :: new)).size + 1) =
        (toList (n.insertEach new).children ((n.insertEach new).size + 1)).insertIdx (t.1 + 1) t.2.2 :=
      toList_insertAt (show t.1 + 1 ≤ (n.insertEach new).size + 1 by rw [size_insertEach]; omega)
    rw [hstep, hrec, BeInnerNode.childrenWith, BeInnerNode.childrenWith, h₁, h₂,
      insertIdx_append_of_length hlen]

/-! ### The moves -/

/-- A call of `std::move_backward` within an array. -/
structure Move where
  first : ℕ
  last : ℕ
  dLast : ℕ

/-- The range is one of the array, and is moved to the right within it. -/
structure Move.Within (mv : Move) (size : ℕ) : Prop where
  range : mv.first ≤ mv.last
  right : mv.last < mv.dLast
  bound : mv.dLast ≤ size

/-- The moves that the loop of `insertPivots` makes in the pivots and in the children, and the slots at
which it stores. -/
def insertPivotsMoves (lastFirst : ℕ) : List (ℕ × K × PageId) → List ((Move × ℕ) × (Move × ℕ))
  | [] => []
  | (index, _) :: rest =>
    let it := rest.length + 1
    ((⟨index, lastFirst, lastFirst + it⟩, index + it - 1),
      (⟨index + 1, lastFirst + 1, lastFirst + it + 1⟩, index + it)) :: insertPivotsMoves index rest

theorem insertPivotsMoves_within {size : ℕ} (hlt : ∀ t ∈ ts, t.1 ≤ l)
    (hdesc : ts.Pairwise fun a b => b.1 < a.1) (hroom : l + ts.length ≤ size) :
    ∀ mv ∈ insertPivotsMoves l ts, (mv.1.1.Within size ∧ mv.1.2 < size) ∧
      mv.2.1.Within (size + 1) ∧ mv.2.2 < size + 1 := by
  induction ts generalizing l with
  | nil => exact fun mv hmv => absurd hmv List.not_mem_nil
  | cons t ts ih =>
    obtain ⟨index, key, child⟩ := t
    obtain ⟨hlower, hdesc⟩ := List.pairwise_cons.mp hdesc
    have hindex : index ≤ l := hlt _ List.mem_cons_self
    rw [List.length_cons] at hroom
    intro mv hmv
    rw [insertPivotsMoves] at hmv
    rcases List.mem_cons.mp hmv with rfl | hmv
    · refine ⟨⟨⟨hindex, ?_, ?_⟩, ?_⟩, ⟨Nat.succ_le_succ hindex, ?_, ?_⟩, ?_⟩ <;> dsimp only <;> omega
    · exact ih (fun t ht => (hlower t ht).le) hdesc (by omega) mv hmv

/-! ### The single pass -/

/-- `insertPivots` gives the node with the splits put in one at a time, within its arrays. -/
theorem insertPivots_oneAtATime (hidx : new.Pairwise fun a b => a.1 < b.1) (hle : ∀ t ∈ new, t.1 ≤ n.size)
    (hroom : n.size + new.length ≤ N.INNER_N) :
    let r := n.insertPivots new
    (r.size = n.size + new.length ∧ toList r.pivots r.size = n.pivotsWith new ∧
      toList r.children (r.size + 1) = n.childrenWith new ∧ r.upserts = n.upserts) ∧
    (r.size = (n.insertEach new).size ∧
      toList r.pivots r.size = toList (n.insertEach new).pivots r.size ∧
      toList r.children (r.size + 1) = toList (n.insertEach new).children (r.size + 1)) ∧
    ∀ mv ∈ insertPivotsMoves n.size new.reverse,
      (mv.1.1.Within N.INNER_N ∧ mv.1.2 < N.INNER_N) ∧
        mv.2.1.Within (N.INNER_N + 1) ∧ mv.2.2 < N.INNER_N + 1 := by
  intro r
  obtain ⟨hp, hc⟩ := insertPivots_each hidx hle
  have hsize : r.size = (n.insertEach new).size := (size_insertEach n new).symm
  have hpivots : toList r.pivots r.size = toList (n.insertEach new).pivots r.size :=
    toList_congr fun i hi => hp i hi
  have hchildren : toList r.children (r.size + 1) = toList (n.insertEach new).children (r.size + 1) :=
    toList_congr fun i hi => hc i hi
  refine ⟨⟨rfl, ?_, ?_, rfl⟩, ⟨hsize, hpivots, hchildren⟩, ?_⟩
  · rw [hpivots, hsize]
    exact toList_pivots_insertEach hidx hle
  · rw [hchildren, hsize]
    exact toList_children_insertEach hidx hle
  · refine insertPivotsMoves_within (fun t ht => hle t (List.mem_reverse.mp ht))
      (List.pairwise_reverse.mpr hidx) ?_
    rwa [List.length_reverse]

/-- Both children of a node with one pivot are split: pivots `5`, `10`, `30`, children `1`, `11`, `2`, `12`. -/
theorem insertPivots_oneAtATime_twoSplits :
    let n : BeInnerNode ℕ ℕ := ⟨⟨fun _ => default, 0⟩, fun _ => 10, fun i => i + 1, 1⟩
    toList (n.insertPivots [(0, 5, 11), (1, 30, 12)]).pivots 3 = [5, 10, 30] ∧
      toList (n.insertPivots [(0, 5, 11), (1, 30, 12)]).children 4 = [1, 11, 2, 12] := by
  intro n
  obtain ⟨⟨-, hp, hc, -⟩, -⟩ := @insertPivots_oneAtATime ℕ ℕ .smallest n [(0, 5, 11), (1, 30, 12)]
    (by decide) (by decide) (by decide)
  exact ⟨hp, hc⟩

end BEpsilon.BeTree
