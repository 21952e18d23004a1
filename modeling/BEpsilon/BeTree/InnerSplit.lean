import BEpsilon.BeTree.Rules

/-!
# BEpsilon.BeTree.InnerSplit — `splitInnerNode` splits node and buffer at the same key

The three divisions of `splitInnerNode` agree: the pivots left of the middle one, the middle one and those
right of it are all, and the children are divided in between.  The buffer is cut at the same key.  It is
sorted, so `std::remove_if` finds the messages above the key at the end and moves nothing, and what stands
behind the iterator that it returns are these messages.
-/

namespace BEpsilon.BeTree

open Slots Keyed Fanout PageWorld

variable {K V : Type} [LinearOrder K]

/-- The inner nodes `l` and `r` divide `n` at `key`. -/
structure DividesInner (n l : BeInnerNode K V) (key : K) (r : BeInnerNode K V) : Prop where
  pivots : toList n.pivots n.size = toList l.pivots l.size ++ key :: toList r.pivots r.size
  children : toList n.children (n.size + 1) = toList l.children (l.size + 1) ++ toList r.children (r.size + 1)
  buffer : n.upserts.toList = l.upserts.toList ++ r.upserts.toList
  /-- no message is overwritten, those that are moved included -/
  kept : ∀ i < n.upserts.size, l.upserts.upserts i = n.upserts.upserts i
  left_le : ∀ u ∈ l.upserts.toList, u.key ≤ key
  right_gt : ∀ u ∈ r.upserts.toList, key < u.key
  route : ∀ k, n.children (lowerBound n.pivots n.size k) =
    if k ≤ key then l.children (lowerBound l.pivots l.size k) else r.children (lowerBound r.pivots r.size k)

section Halves

variable {n : BeInnerNode K V} {L : Leftover K V}

omit [LinearOrder K] in
/-- Slots up to a cut, and those that were moved to another array. -/
theorem toList_moveTo {α : Type} {a dst : Slots α} {c m : ℕ} (hc : c ≤ m) :
    toList a m = toList a c ++ toList (moveTo a c m dst 0) (m - c) := by
  obtain ⟨d, rfl⟩ := Nat.exists_eq_add_of_le hc
  rw [Nat.add_sub_cancel_left, toList_add]
  congr 1
  exact toList_congr fun i hi => (moveTo_zero (by omega)).symm

/-- The halves that `splitInnerNode` makes divide the node. -/
theorem dividesInner_halves (h2 : 2 ≤ n.size) (hp : Sorted n.pivots n.size)
    (hs : KeysSorted Upsert.key n.upserts.toList) :
    DividesInner n n.leftHalf n.middleKey (n.rightHalf L) := by
  have hcut : (n.size - 1) / 2 < n.size := by omega
  obtain ⟨hbuffer, hleft, hright⟩ := toList_halves hs
  refine ⟨?_, ?_, hbuffer, fun _ _ => rfl, hleft, hright, ?_⟩
  · -- the middle pivot stands between those of the two halves
    have hone : toList n.pivots ((n.size - 1) / 2 + 1) = toList n.pivots ((n.size - 1) / 2) ++ [n.middleKey] :=
      toList_add n.pivots _ 1
    have hall : toList n.pivots n.size = toList n.pivots ((n.size - 1) / 2 + 1) ++
        toList (n.rightHalf L).pivots (n.rightHalf L).size := toList_moveTo hcut
    rw [hall, hone, List.append_assoc, List.singleton_append]
    rfl
  · have hall : toList n.children (n.size + 1) = toList n.children ((n.size - 1) / 2 + 1) ++
        toList (n.rightHalf L).children (n.size + 1 - ((n.size - 1) / 2 + 1)) := toList_moveTo (by omega)
    have hsize : n.size + 1 - ((n.size - 1) / 2 + 1) = (n.rightHalf L).size + 1 := by
      change _ = n.size - ((n.size - 1) / 2 + 1) + 1
      omega
    rw [hall, hsize]
    rfl
  · intro k
    split
    next hk => exact (route_take hcut hk).symm
    next hk =>
      have hroute : route (n.rightHalf L).pivots (n.rightHalf L).children (n.rightHalf L).size k =
          route n.pivots n.children n.size k := route_drop hp hcut (not_le.mp hk)
      exact hroute.symm

end Halves

/-- An inner node whose page is latched, with a new page to come. -/
structure InnerPage (R : PageRules) (w : PageWorld (BeNode K V) Header) (page : PageId) (n : BeInnerNode K V) :
    Prop where
  inner : w.mem page = some (.inner n)
  pinned : ∃ s, (page, s) ∈ w.pins
  fresh : w.mem (R.ids w.created) = none
  fresh_free : ∀ p ∈ w.pins, p.1 ≠ R.ids w.created

/-- `splitInnerNode` leaves the left half in the page and the right half in the new page. -/
theorem splitInnerNode_divides (R : PageRules) (O : Unspecified K V) (page : PageId) (n : BeInnerNode K V)
    (w : PageWorld (BeNode K V) Header) (h2 : 2 ≤ n.size) (hp : Sorted n.pivots n.size)
    (hs : KeysSorted Upsert.key n.upserts.toList) (hw : InnerPage R w page n) :
    Concludes R (splitInnerNode O page) w fun (right, resultKey) v => right ≠ page ∧
      ∃ l r, v.mem page = some (.inner l) ∧ v.mem right = some (.inner r) ∧ DividesInner n l resultKey r ∧
        (∀ p, p ≠ page → p ≠ right → v.mem p = w.mem p) ∧ v.pins = (right, none) :: w.pins := by
  obtain ⟨mem, created, header, pins, recent, kept⟩ := w
  obtain ⟨hm, hpage, hfresh, hpins⟩ := hw
  dsimp only at hm hpage hfresh hpins
  have hne : R.ids created ≠ page := by
    rintro rfl
    rw [hm] at hfresh
    cases hfresh
  rw [← Prog.bind_ret (splitInnerNode O page)]
  refine Runs.concludes ?_
  refine runs_splitInnerNode (R := R.lenient) hpage hfresh hpins rfl hm h2 hs (runs_ret ?_)
  refine ⟨hne, n.leftHalf, n.rightHalf (O.memory (R.lenient.ids created)), Function.update_self .., ?_,
    dividesInner_halves h2 hp hs, ?_, rfl⟩
  · have hne' : R.lenient.ids created ≠ page := hne
    dsimp only
    rw [Function.update_of_ne hne', Function.update_self]
  · intro p h₁ h₂
    dsimp only
    rw [Function.update_of_ne h₁, Function.update_of_ne h₂]

/-- An inner node with the pivots 10, 20 and 30 and messages for 5, 20 and 25. -/
def threePivots : BeInnerNode ℕ ℕ :=
  ⟨⟨fun i => if i = 0 then ⟨5, 0, 1, .DELETE⟩ else ⟨15 + 5 * i, i, i + 1, .UPDATE⟩, 3⟩,
    fun i => 10 * i + 10, fun i => i + 1, 3⟩

/-- It is split at 20. -/
theorem splitInnerNode_divides_threePivots : ∃ w' l r,
    Returns (handler ⟨true, some 2, id, fun _ _ h => h⟩) (splitInnerNode (.basic ℕ ℕ) 0)
      ⟨Function.update (fun _ => none) 0 (some (.inner threePivots)), 1, {}, [(0, none)], [], True⟩ (1, 20) w' ∧
    w'.mem 0 = some (.inner l) ∧ w'.mem 1 = some (.inner r) ∧ DividesInner threePivots l 20 r := by
  obtain ⟨-, hall⟩ := splitInnerNode_divides ⟨true, some 2, id, fun _ _ h => h⟩ (.basic ℕ ℕ) 0 threePivots
    ⟨Function.update (fun _ => none) 0 (some (.inner threePivots)), 1, {}, [(0, none)], [], True⟩
    (by decide) (fun i j hij _ => by change 10 * i + 10 < 10 * j + 10; omega)
    (by simp [KeysSorted, threePivots, UpsertBuffer.toList, toList, List.range_succ])
    ⟨rfl, ⟨none, List.mem_cons_self⟩, rfl, by simp⟩
  have hrun : Returns (handler ⟨true, some 2, id, fun _ _ h => h⟩) (splitInnerNode (.basic ℕ ℕ) 0)
      ⟨Function.update (fun _ => none) 0 (some (.inner threePivots)), 1, {}, [(0, none)], [], True⟩ (1, 20) _ :=
    ⟨40, rfl⟩
  obtain ⟨-, l, r, hl, hr, hdiv, -⟩ := hall _ _ hrun
  exact ⟨_, l, r, hrun, hl, hr, hdiv⟩

end BEpsilon.BeTree
