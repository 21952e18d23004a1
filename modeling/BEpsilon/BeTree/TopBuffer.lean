import BEpsilon.BeTree.LeafTarget

/-!
# BEpsilon.BeTree.TopBuffer — one message for the buffer of a node below the root node

A message for a key that the buffer has a message for is squashed with it, another one is inserted.  Where
the new message is the newer one, this is `mergeUpserts` with the message alone.
-/

namespace BEpsilon.BeTree

open Slots Keyed

variable {K V : Type} [LinearOrder K] [Add V]

section Merge

variable {l : List (Upsert K V)} {u : Upsert K V} {i : ℕ}

/-- The message is newer than the one that the list has for its key. -/
theorem mergeUpserts_set (hl : KeysSorted Upsert.key l) (hi : i < l.length) (hk : l[i].key = u.key) :
    mergeUpserts l [u] = l.set i (squashUpserts l[i] u) := by
  induction l generalizing i with
  | nil => simp at hi
  | cons a l ih =>
    obtain ⟨hlt, hl⟩ := keysSorted_cons.mp hl
    cases i with
    | zero =>
      rw [List.getElem_cons_zero] at hk
      rw [mergeUpserts, if_pos hk, mergeUpserts_nil]
      rfl
    | succ i =>
      rw [List.getElem_cons_succ] at hk
      have ha : a.key < u.key := hk ▸ hlt _ (List.getElem_mem _)
      have hno : u.lt a = false := by simp [Upsert.lt, ha.ne', ha.le]
      rw [mergeUpserts, if_neg ha.ne, hno, if_neg Bool.false_ne_true, ih hl _ hk]
      rfl

/-- The list has no message for the key. -/
theorem mergeUpserts_insertIdx (hlow : ∀ j (hj : j < l.length), j < i → l[j].key < u.key)
    (hhigh : ∀ j (hj : j < l.length), i ≤ j → u.key < l[j].key) (hi : i ≤ l.length) :
    mergeUpserts l [u] = l.insertIdx i u := by
  induction l generalizing i with
  | nil =>
    obtain rfl : i = 0 := by simpa using hi
    simp [mergeUpserts]
  | cons a l ih =>
    cases i with
    | zero =>
      have ha : u.key < a.key := hhigh 0 (Nat.succ_pos _) le_rfl
      have hyes : u.lt a = true := by simp [Upsert.lt, ha.ne, ha]
      rw [mergeUpserts, if_neg ha.ne', if_pos hyes, mergeUpserts_nil]
      rfl
    | succ i =>
      have ha : a.key < u.key := hlow 0 (Nat.succ_pos _) (Nat.succ_pos _)
      have hno : u.lt a = false := by simp [Upsert.lt, ha.ne', ha.le]
      rw [mergeUpserts, if_neg ha.ne, hno, if_neg Bool.false_ne_true, List.insertIdx_succ_cons,
        ih (fun j hj hji => hlow (j + 1) (Nat.succ_lt_succ hj) (Nat.succ_lt_succ hji))
          (fun j hj hij => hhigh (j + 1) (Nat.succ_lt_succ hj) (Nat.succ_le_succ hij))
          (Nat.le_of_succ_le_succ hi)]

end Merge

/-- The buffer `b'` is `b` with one more message, for which it may have had one. -/
structure BufferSet (b b' : UpsertBuffer K V) (u : Upsert K V) : Prop where
  sorted : KeysSorted Upsert.key b'.toList
  members : ∀ x ∈ b'.toList, x ∈ b.toList ∨ x = u ∨ ∃ y ∈ b.toList, y.key = u.key ∧ x = squashUpserts u y
  merged : (∀ x ∈ b.toList, x.key = u.key → x.timeStamp < u.timeStamp) →
    b'.toList = mergeUpserts b.toList [u]

namespace BufferSet

variable {b : UpsertBuffer K V} {u : Upsert K V} {i : ℕ}

/-- The message is squashed with the one for its key. -/
theorem squash (hs : KeysSorted Upsert.key b.toList) (hi : i < b.size) (hk : (b.upserts i).key = u.key) :
    BufferSet b { b with upserts := Function.update b.upserts i (squashUpserts u (b.upserts i)) } u := by
  have hlist : UpsertBuffer.toList { b with
      upserts := Function.update b.upserts i (squashUpserts u (b.upserts i)) } =
      b.toList.set i (squashUpserts u (b.upserts i)) := toList_update _ _ _ _
  have hlen : i < b.toList.length := by rwa [UpsertBuffer.toList, length_toList]
  have hat : b.toList[i] = b.upserts i := getElem_toList hlen
  refine ⟨?_, fun x hx => ?_, fun hnew => ?_⟩
  · rw [hlist, KeysSorted, ← List.pairwise_map (f := Upsert.key) (R := fun a b => a < b), List.map_set,
      squashUpserts_key hk.symm, ← hk, ← hat,
      ← List.getElem_map Upsert.key (h := by rwa [List.length_map]), List.set_getElem_self]
    exact List.pairwise_map.mpr hs
  · rw [hlist] at hx
    rcases List.mem_or_eq_of_mem_set hx with hx | rfl
    · exact .inl hx
    · exact .inr (.inr ⟨b.upserts i, hat ▸ List.getElem_mem hlen, hk, rfl⟩)
  · have hlt := hnew _ (List.getElem_mem hlen) (hat ▸ hk)
    rw [hlist, mergeUpserts_set hs hlen (hat ▸ hk), hat]
    rw [hat] at hlt
    rw [squashUpserts_of_gt hk.symm hlt, squashUpserts_of_lt hk hlt]

omit [Add V] in
/-- The buffer has no message for the key. -/
theorem misses (hs : KeysSorted Upsert.key b.toList)
    (hnot : ¬ (lowerBound (fun i => (b.upserts i).key) b.size u.key < b.size ∧
      (b.upserts (lowerBound (fun i => (b.upserts i).key) b.size u.key)).key = u.key)) :
    ∀ x ∈ b.toList, x.key ≠ u.key := by
  intro x hx hkey
  obtain ⟨j, hj, rfl⟩ := List.mem_map.mp hx
  refine hnot ?_
  rw [← hkey, (keysSorted_toList.mp hs).lowerBound_self (List.mem_range.mp hj)]
  exact ⟨List.mem_range.mp hj, rfl⟩

/-- The message is inserted. -/
theorem insert (hs : KeysSorted Upsert.key b.toList)
    (hnot : ¬ (lowerBound (fun i => (b.upserts i).key) b.size u.key < b.size ∧
      (b.upserts (lowerBound (fun i => (b.upserts i).key) b.size u.key)).key = u.key)) :
    BufferSet b ⟨insertAt b.upserts b.size (lowerBound (fun i => (b.upserts i).key) b.size u.key) u,
      b.size + 1⟩ u := by
  set i := lowerBound (fun i => (b.upserts i).key) b.size u.key with hi
  have hsort : Sorted (fun i => (b.upserts i).key) b.size := keysSorted_toList.mp hs
  have hle : i ≤ b.size := lowerBound_le _ _ _
  have hlist : UpsertBuffer.toList ⟨insertAt b.upserts b.size i u, b.size + 1⟩ = b.toList.insertIdx i u :=
    toList_insertAt hle
  have hmerge : mergeUpserts b.toList [u] = b.toList.insertIdx i u := by
    refine mergeUpserts_insertIdx (fun j hj hji => ?_) (fun j hj hij => ?_) ?_
    · rw [show b.toList[j] = b.upserts j from getElem_toList hj]
      exact lt_of_lt_lowerBound (a := fun i => (b.upserts i).key) (n := b.size) (hi ▸ hji)
    · rw [show b.toList[j] = b.upserts j from getElem_toList hj]
      rw [UpsertBuffer.length_toList] at hj
      have hge : u.key ≤ (b.upserts i).key :=
        le_of_lowerBound_lt (a := fun i => (b.upserts i).key) (n := b.size) (by omega)
      have hlt : u.key < (b.upserts i).key :=
        lt_of_le_of_ne hge fun e => hnot ⟨by omega, e.symm⟩
      rcases hij.lt_or_eq with h | h
      · exact hlt.trans (hsort i j h hj)
      · exact h ▸ hlt
    · rwa [UpsertBuffer.length_toList]
  refine ⟨?_, fun x hx => ?_, fun _ => by rw [hlist, hmerge]⟩
  · rw [hlist, ← hmerge]
    exact mergeUpserts_sorted hs (List.pairwise_singleton _ _)
  · rw [hlist] at hx
    rcases List.eq_or_mem_of_mem_insertIdx hx with rfl | hx
    · exact .inr (.inl rfl)
    · exact .inl hx

end BufferSet

namespace Keeps

variable {ids : ℕ → PageId} {N : NodeSizes} {A : Prop} {T T' : K → ℕ} {C : K → Option V}
  {mem : PageId → Option (BeNode K V)} {header : Header} {created g : ℕ} {pg : ℕ → K → PageId}
  {u : Upsert K V} {n n' : BeInnerNode K V}

/-- The stamps of the messages that the tree holds. -/
theorem stamp_le {F : PageId → List (Upsert K V)} {H : ℕ} (hK : Keeps ids N A T C mem F header created H pg)
    (a : A) {h : ℕ} (hh : h ≤ H) (k₀ : K) {x : Upsert K V} (hx : x ∈ waitingAt mem F (pg h k₀)) :
    x.timeStamp ≤ T x.key := by
  have hW := hK.inv.waiting h hh k₀
  have hlev : levels mem F pg H h x.key = some x := by
    rw [levels_apply hh, hW.range x hx]
    exact hW.distinct.seek_self hx
  exact ((hK.held a).ordered.all_good h x.key x hlev).stamp_le

/-- A new message comes into the buffer of an inner node below the root node. -/
theorem post_buffer (hK : Keeps ids N A T C mem noFlight header created (g + 2) pg)
    (hA : A → Newest T u T')
    (hu : u.type ≠ .INVALID) (hn : mem (pg (g + 1) u.key) = some (.inner n))
    (hview : (BeNode.inner n').view = (BeNode.inner n).view)
    (hset : BufferSet n.upserts n'.upserts u) (hpiv : n'.size = n.size)
    (hsize : n'.upserts.size ≤ N.INNER_B_N) (hs : Sorted n'.pivots n'.size)
    (hd : Fanout.Distinct n'.children n'.size) :
    Keeps ids N A T' (Function.update C u.key (u.effect (C u.key)))
      (Function.update mem (pg (g + 1) u.key) (some (.inner n'))) noFlight header created (g + 2) pg := by
  have hok : InnerNodeOk N n := (hK.inv.nodes _ (by omega) _ _ hn).2
  have hW := hK.inv.waiting (g + 1) (by omega) u.key
  rw [waitingAt_inner hn, List.nil_append] at hW
  refine hK.post hA hu hn hview ⟨hs, hd, hpiv ▸ hok.size_le, hset.sorted, hsize⟩ ?_ (fun a => ?_) fun _ _ => rfl
  · refine ⟨hset.sorted.distinct, fun x hx => ?_, fun x hx => ?_⟩
    · rcases hset.members x hx with hx | rfl | ⟨y, hy, e, rfl⟩
      · exact hW.range x hx
      · rfl
      · rw [squashUpserts_key e.symm]
    · rcases hset.members x hx with hx | rfl | ⟨y, hy, e, rfl⟩
      · exact hW.valid x hx
      · exact hu
      · exact squashUpserts_valid hu (hW.valid y hy)
  · rw [List.nil_append, hset.merged fun x hx e => ?_]
    refine lt_of_le_of_lt (e ▸ hK.stamp_le a (h := g + 1) (by omega) u.key ?_) (hA a).lt
    rwa [waitingAt_inner hn, List.nil_append]

end Keeps

end BEpsilon.BeTree
