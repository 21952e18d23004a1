import BEpsilon.BeTree.Messages
import Mathlib.Data.List.Flatten
import Mathlib.Data.List.Perm.Basic

/-!
# BEpsilon.BeTree.Blocks — what `removeMessages` takes out of a buffer

The blocks of a sorted range are its stretches of messages for one child, in the order of the children.
The loop over the blocks takes messages out until enough slots are free.  Nothing is lost on the way:
what was taken and what is left are together the merged range.
-/

namespace BEpsilon.BeTree

open Slots Keyed

variable {K V : Type} [LinearOrder K]

/-! ### The blocks -/

section Scan

variable {childOf : K → ℕ} {lastKey : K} {index : ℕ} {block rest l : List (Upsert K V)}

theorem flatMap_scanBlocks :
    (scanBlocks childOf lastKey index block rest).flatMap Block.messages = block ++ rest := by
  induction rest generalizing lastKey index block with
  | nil => simp [scanBlocks]
  | cons u rest ih =>
    rw [scanBlocks]
    split
    · rw [List.flatMap_cons, ih]
      simp
    · rw [ih]
      simp

/-- Each block holds the messages of one child, and the children increase. -/
structure BlocksOk (childOf : K → ℕ) (blocks : List (Block K V)) : Prop where
  nonempty : ∀ b ∈ blocks, b.messages ≠ []
  child : ∀ b ∈ blocks, ∀ u ∈ b.messages, childOf u.key = b.childIndex
  increasing : blocks.Pairwise fun b b' => b.childIndex < b'.childIndex

theorem scanBlocks_ok (hmono : Monotone childOf) (hsort : KeysSorted Upsert.key (block ++ rest))
    (hlast : ∃ v ∈ block, v.key = lastKey) (hchild : ∀ u ∈ block, childOf u.key = index) :
    BlocksOk childOf (scanBlocks childOf lastKey index block rest) ∧
      ∀ b ∈ scanBlocks childOf lastKey index block rest, index ≤ b.childIndex := by
  induction rest generalizing lastKey index block with
  | nil =>
    obtain ⟨v, hv, -⟩ := hlast
    refine ⟨⟨?_, ?_, by simp [scanBlocks]⟩, by simp [scanBlocks]⟩
    · simpa [scanBlocks] using List.ne_nil_of_mem hv
    · simpa [scanBlocks] using hchild
  | cons u rest ih =>
    obtain ⟨v, hv, rfl⟩ := hlast
    obtain ⟨-, hrest, hlt⟩ := keysSorted_append.mp hsort
    have hvu : v.key < u.key := hlt v hv u List.mem_cons_self
    rw [scanBlocks]
    split
    next hc =>
      obtain ⟨hok, hge⟩ := @ih u.key (childOf u.key) [u] hrest ⟨u, by simp, rfl⟩ (by simp)
      have hidx : index < childOf u.key :=
        lt_of_le_of_ne (hchild v hv ▸ hmono hvu.le) (Ne.symm hc.2)
      refine ⟨⟨?_, ?_, ?_⟩, ?_⟩
      · rintro b (_ | ⟨_, hb⟩)
        · exact List.ne_nil_of_mem hv
        · exact hok.nonempty b hb
      · rintro b (_ | ⟨_, hb⟩)
        · exact hchild
        · exact hok.child b hb
      · exact List.pairwise_cons.mpr ⟨fun b hb => hidx.trans_le (hge b hb), hok.increasing⟩
      · rintro b (_ | ⟨_, hb⟩)
        · exact le_rfl
        · exact hidx.le.trans (hge b hb)
    next hc =>
      -- the keys of a sorted range differ, so the message is for the child of the block
      have hu : childOf u.key = index := by
        by_contra hne
        exact hc ⟨hvu.ne', hne⟩
      refine ih (by rwa [List.append_assoc, List.singleton_append])
        ⟨v, List.mem_append_left _ hv, rfl⟩ fun w hw => ?_
      rcases List.mem_append.mp hw with hw | hw
      · exact hchild w hw
      · rw [List.mem_singleton.mp hw]
        exact hu

theorem flatMap_messageBlocks : (messageBlocks childOf l).flatMap Block.messages = l := by
  cases l with
  | nil => rfl
  | cons u rest => exact flatMap_scanBlocks

theorem messageBlocks_ok (hmono : Monotone childOf) (hsort : KeysSorted Upsert.key l) :
    BlocksOk childOf (messageBlocks childOf l) := by
  cases l with
  | nil => exact ⟨by simp [messageBlocks], by simp [messageBlocks], List.Pairwise.nil⟩
  | cons u rest => exact (scanBlocks_ok hmono hsort ⟨u, by simp, rfl⟩ (by simp)).1

end Scan

/-! ### The loop over the blocks -/

section Collect

omit [LinearOrder K]

variable {needed max c : ℕ} {blocks rest : List (Block K V)} {result added : MessageMap K V}
  {refs : List ℕ}

/-- What the loop takes from the blocks it looks at. -/
structure Collected (needed max c : ℕ) (blocks rest : List (Block K V)) (added : MessageMap K V)
    (refs : List ℕ) : Prop where
  perm : (added.flatMap Prod.snd ++ rest.flatMap Block.messages).Perm (blocks.flatMap Block.messages)
  sub : (rest.flatMap Block.messages).Sublist (blocks.flatMap Block.messages)
  vectors : ∀ e ∈ added, ∃ r ∈ refs, ∃ b, blocks[r]? = some b ∧ e.1 = b.childIndex ∧
    e.2.Sublist b.messages ∧ e.2 ≠ [] ∧ e.2.length ≤ max
  indices : (added.map fun e => some e.1).Sublist (refs.map fun r => blocks[r]?.map Block.childIndex)
  few : added.length ≤ needed - c
  some_added : c < needed → refs ≠ [] → added ≠ []
  le_max : c ≤ max → c + (added.flatMap Prod.snd).length ≤ max
  others : ∀ r, r ∉ refs → rest[r]? = blocks[r]?
  enough : needed ≤ c + (added.flatMap Prod.snd).length ∨
    ∀ r ∈ refs, ∀ b, rest[r]? = some b → b.messages = []

theorem collectBlocks_spec (hrefs : refs.Nodup) (hlt : ∀ r ∈ refs, r < blocks.length)
    (hne : ∀ r ∈ refs, ∀ b, blocks[r]? = some b → b.messages ≠ []) (hmax : needed ≤ max) :
    ∃ rest added, collectBlocks needed max c blocks result refs = (rest, result ++ added) ∧
      Collected needed max c blocks rest added refs := by
  induction refs generalizing c blocks result with
  | nil => exact ⟨blocks, [], by simp [collectBlocks], by simp, List.Sublist.refl _, by simp, by simp,
      by simp, by simp, by simp, by simp, .inr (by simp)⟩
  | cons r refs ih =>
    rw [collectBlocks]
    split
    next hc =>
      obtain ⟨hr, hrefs⟩ := List.nodup_cons.mp hrefs
      have hrl := hlt r List.mem_cons_self
      obtain ⟨b, hb⟩ : ∃ b, blocks[r]? = some b := ⟨_, List.getElem?_eq_getElem hrl⟩
      rw [hb]
      dsimp only
      set toRemove := if max < c + b.messages.length then max - c else b.messages.length with hdef
      have hbne := hne r List.mem_cons_self b hb
      have hlen : 0 < b.messages.length := List.length_pos_iff.mpr hbne
      have htr : 0 < toRemove ∧ toRemove ≤ b.messages.length ∧ toRemove ≤ max ∧
          (toRemove = b.messages.length ∨ c + toRemove = max) := by
        rw [hdef]
        split <;> omega
      have hlenTake : (b.messages.take toRemove).length = toRemove := by
        rw [List.length_take]
        omega
      -- the list around the block
      obtain ⟨pre, post, hbl, hpre, hset⟩ : ∃ pre post, blocks = pre ++ blocks[r] :: post ∧
          pre.length = r ∧ blocks.set r { b with messages := b.messages.drop toRemove } =
            pre ++ { b with messages := b.messages.drop toRemove } :: post := List.exists_of_set hrl
      have hbr : blocks[r] = b := Option.some.inj ((List.getElem?_eq_getElem hrl).symm.trans hb)
      rw [hbr] at hbl
      have hget : ∀ r' ∈ refs,
          (blocks.set r { b with messages := b.messages.drop toRemove })[r']? = blocks[r']? := by
        intro r' hr'
        refine List.getElem?_set_ne fun e => hr ?_
        rw [e]
        exact hr'
      obtain ⟨rest, added, he, hC⟩ := @ih (c + toRemove)
        (blocks.set r { b with messages := b.messages.drop toRemove })
        (result ++ [(b.childIndex, b.messages.take toRemove)]) hrefs
        (fun r' hr' => by rw [List.length_set]; exact hlt r' (List.mem_cons_of_mem _ hr'))
        (fun r' hr' b' hb' => hne r' (List.mem_cons_of_mem _ hr') b' (by rwa [← hget r' hr']))
      refine ⟨rest, (b.childIndex, b.messages.take toRemove) :: added, by rw [he]; simp, ?_, ?_, ?_, ?_,
        ?_, by simp, fun hcm => ?_, ?_, ?_⟩
      · rw [List.flatMap_cons, List.append_assoc]
        refine (hC.perm.append_left _).trans ?_
        rw [hset, hbl, List.flatMap_append, List.flatMap_append, List.flatMap_cons, List.flatMap_cons]
        refine (List.perm_append_comm_assoc _ _ _).trans (List.Perm.append_left _ ?_)
        rw [← List.append_assoc, List.take_append_drop]
      · refine hC.sub.trans ?_
        rw [hset, hbl, List.flatMap_append, List.flatMap_append, List.flatMap_cons, List.flatMap_cons]
        exact ((List.drop_sublist _ _).append_right _).append_left _
      · rintro e (_ | ⟨_, he'⟩)
        · refine ⟨r, List.mem_cons_self, b, hb, rfl, List.take_sublist _ _, ?_, by rw [hlenTake]; omega⟩
          exact List.length_pos_iff.mp (by rw [hlenTake]; omega)
        · obtain ⟨r', hr', b', hb', h⟩ := hC.vectors e he'
          exact ⟨r', List.mem_cons_of_mem _ hr', b', by rwa [← hget r' hr'], h⟩
      · rw [List.map_cons, List.map_cons, hb, ← List.map_congr_left (l := refs)
          fun r' hr' => congrArg (Option.map Block.childIndex) (hget r' hr')]
        exact hC.indices.cons_cons _
      · have := hC.few
        rw [List.length_cons]
        omega
      · have hle : c + toRemove ≤ max := by
          rw [hdef]
          split <;> omega
        have := hC.le_max hle
        rw [List.flatMap_cons, List.length_append, hlenTake]
        omega
      · intro r' hr'
        rw [hC.others r' fun hc => hr' (List.mem_cons_of_mem _ hc)]
        refine List.getElem?_set_ne fun e => hr' ?_
        rw [e]
        exact List.mem_cons_self
      · rw [List.flatMap_cons, List.length_append, hlenTake]
        rcases hC.enough with h | h
        · exact .inl (by omega)
        · rcases htr.2.2.2 with h' | h'
          · right
            rintro r' (_ | ⟨_, hr'⟩) b' hb'
            · -- the whole block was taken
              rw [hC.others r hr, List.getElem?_set_self hrl] at hb'
              obtain rfl := Option.some.inj hb'
              simp [h']
            · exact h r' hr' b' hb'
          · exact .inl (by omega)
    next hc =>
      exact ⟨blocks, [], by simp, by simp, List.Sublist.refl _, by simp, by simp, by simp,
        fun h => absurd h hc, by simp, by simp, .inl (by simpa using hc)⟩

end Collect

/-! ### The routine -/

theorem lowerBound_mono (a : Slots K) (n : ℕ) : Monotone (lowerBound a n) := by
  intro k k' hk
  by_contra hc
  have hlt := not_le.mp hc
  have hle := lowerBound_le a n k
  have h₁ : k' ≤ a (lowerBound a n k') := le_of_lowerBound_lt (by omega)
  exact absurd (lt_of_lt_lowerBound hlt) (not_lt.mpr (hk.trans h₁))

omit [LinearOrder K] in
@[simp] theorem UpsertBuffer.toList_assign (b : UpsertBuffer K V) (l : List (Upsert K V)) :
    (b.assign l).toList = l := by
  apply List.ext_getElem
  · simp [UpsertBuffer.toList, UpsertBuffer.assign, Slots.toList]
  · intro i h₁ h₂
    simp [UpsertBuffer.toList, UpsertBuffer.assign, Slots.toList, Slots.assign, h₂]

omit [LinearOrder K] in
@[simp] theorem UpsertBuffer.size_assign (b : UpsertBuffer K V) (l : List (Upsert K V)) :
    (b.assign l).size = l.length := rfl

omit [LinearOrder K] in
@[simp] theorem UpsertBuffer.length_toList (b : UpsertBuffer K V) : b.toList.length = b.size := by
  simp [UpsertBuffer.toList, Slots.toList]

section Routine

variable [Add V] {as bs : List (Upsert K V)}

theorem length_mergeUpserts_le : (mergeUpserts as bs).length ≤ as.length + bs.length := by
  fun_induction mergeUpserts as bs <;> simp only [List.length_cons, List.length_nil] at * <;> omega

theorem mergeUpserts_ne_nil (hb : bs ≠ []) : mergeUpserts as bs ≠ [] := by
  fun_induction mergeUpserts as bs with
  | case1 bs => exact hb
  | case2 as has => exact absurd rfl hb
  | case3 | case4 | case5 => simp

/-- How `removeMessages` divides the messages between the node `n'` and the vectors of the map. -/
structure Divided (N : NodeSizes) (n n' : BeInnerNode K V) (additional : List (Upsert K V))
    (maxRemoved : ℕ) (map : MessageMap K V) : Prop where
  pivots : n'.pivots = n.pivots
  children : n'.children = n.children
  size : n'.size = n.size
  perm : (map.flatMap Prod.snd ++ n'.upserts.toList).Perm (n.allMessages additional)
  sorted : KeysSorted Upsert.key n'.upserts.toList
  size_le : n'.upserts.size ≤ N.INNER_B_N
  nodup : (map.map Prod.fst).Nodup
  vectors : ∀ e ∈ map, e.2 ≠ [] ∧ KeysSorted Upsert.key e.2 ∧
    ∀ u ∈ e.2, lowerBound n.pivots n.size u.key = e.1
  removed_le : (map.flatMap Prod.snd).length ≤ maxRemoved
  le_removed : min (n.neededSlots N additional) (n.allMessages additional).length ≤
    (map.flatMap Prod.snd).length
  few : map.length ≤ n.neededSlots N additional
  nonempty : 0 < n.neededSlots N additional → map ≠ []

theorem removeMessages_divided {N : NodeSizes} (O : Unspecified K V) {n : BeInnerNode K V}
    {additional : List (Upsert K V)} {maxRemoved : ℕ} (hsort : KeysSorted Upsert.key n.upserts.toList)
    (hadd : KeysSorted Upsert.key additional) (hne : additional ≠ [])
    (hmax : n.neededSlots N additional ≤ maxRemoved) :
    Divided N n (n.removeMessages N O additional maxRemoved).1 additional maxRemoved
      (n.removeMessages N O additional maxRemoved).2 := by
  have hall : KeysSorted Upsert.key (n.allMessages additional) := mergeUpserts_sorted hsort hadd
  have hlenAll : (n.allMessages additional).length ≤ n.upserts.size + additional.length := by
    have h : (n.allMessages additional).length ≤ n.upserts.toList.length + additional.length :=
      length_mergeUpserts_le
    rwa [UpsertBuffer.length_toList] at h
  set blocks := messageBlocks (lowerBound n.pivots n.size) (n.allMessages additional) with hblocks
  have hok : BlocksOk (lowerBound n.pivots n.size) blocks :=
    messageBlocks_ok (lowerBound_mono _ _) hall
  have hflat : blocks.flatMap Block.messages = n.allMessages additional := flatMap_messageBlocks
  -- the references are the indices of the blocks
  set refs := O.largestFirst (blocks.map fun b => b.messages.length) with hrefs
  have hperm : refs.Perm (List.range blocks.length) := by
    have h := O.largestFirst_perm (blocks.map fun b => b.messages.length)
    rwa [List.length_map] at h
  have hmem : ∀ r, r ∈ refs ↔ r < blocks.length := fun r => by
    rw [hperm.mem_iff, List.mem_range]
  obtain ⟨rest, map, he, hC⟩ : ∃ rest map, collectBlocks (n.neededSlots N additional) maxRemoved 0
      blocks [] refs = (rest, [] ++ map) ∧
      Collected (n.neededSlots N additional) maxRemoved 0 blocks rest map refs :=
    collectBlocks_spec (hperm.nodup_iff.mpr List.nodup_range) (fun r hr => (hmem r).mp hr)
      (fun r _ b hb => hok.nonempty b (List.mem_of_getElem? hb)) hmax
  rw [List.nil_append] at he
  have hrm : n.removeMessages N O additional maxRemoved =
      ({ n with upserts := n.upserts.assign (rest.flatMap Block.messages) }, map) := by
    rw [BeInnerNode.removeMessages]
    simp only [← hblocks, ← hrefs, he]
  have hlen := hC.perm.length_eq
  rw [List.length_append, hflat] at hlen
  -- either enough was taken or everything
  have htaken : n.neededSlots N additional ≤ (map.flatMap Prod.snd).length ∨
      rest.flatMap Block.messages = [] := by
    refine hC.enough.imp (fun h => by rwa [Nat.zero_add] at h) fun h => ?_
    rw [List.flatMap_eq_nil_iff]
    intro b hb
    obtain ⟨r, hr⟩ := List.mem_iff_getElem?.mp hb
    by_cases hrr : r ∈ refs
    · exact h r hrr b hr
    · rw [hC.others r hrr] at hr
      exact absurd ((hmem r).mpr (List.getElem?_eq_some_iff.mp hr).1) hrr
  rw [hrm]
  refine ⟨rfl, rfl, rfl, ?_, ?_, ?_, ?_, fun e hem => ?_, ?_, ?_, hC.few, fun hpos => ?_⟩
  · rw [UpsertBuffer.toList_assign, ← hflat]
    exact hC.perm
  · rw [UpsertBuffer.toList_assign]
    exact hall.sublist (hflat ▸ hC.sub)
  · rw [UpsertBuffer.size_assign]
    rcases htaken with h | h
    · rw [BeInnerNode.neededSlots] at h
      omega
    · rw [h]
      exact Nat.zero_le _
  · have hidx : (refs.map fun r => blocks[r]?.map Block.childIndex).Nodup := by
      have h₁ := hperm.map fun r => blocks[r]?.map Block.childIndex
      rw [h₁.nodup_iff]
      have h₂ : (List.range blocks.length).map (fun r => blocks[r]?.map Block.childIndex) =
          (blocks.map Block.childIndex).map some := by
        apply List.ext_getElem
        · simp
        · intro i h₁ h₂
          have hi : i < blocks.length := by simpa using h₁
          simp [hi]
      rw [h₂]
      exact (List.Nodup.map (Option.some_injective _))
        (List.Pairwise.map _ (fun _ _ h => h.ne) hok.increasing)
    have h := hC.indices.nodup hidx
    have hsome : map.map (fun e => some e.1) = (map.map Prod.fst).map some := by
      rw [List.map_map]
      rfl
    rw [hsome] at h
    exact h.of_map _
  · obtain ⟨r, hr, b, hb, hi, hsub, hnil, -⟩ := hC.vectors e hem
    have hb' := List.mem_of_getElem? hb
    refine ⟨hnil, hall.sublist (hsub.trans ?_), fun u hu => ?_⟩
    · rw [← hflat]
      exact List.sublist_flatten_of_mem (List.mem_map_of_mem hb')
    · rw [hi]
      exact hok.child b hb' u (hsub.subset hu)
  · have h := hC.le_max (Nat.zero_le _)
    rwa [Nat.zero_add] at h
  · rcases htaken with h | h
    · exact (min_le_left _ _).trans h
    · rw [h, List.length_nil, Nat.add_zero] at hlen
      exact (min_le_right _ _).trans hlen.ge
  · refine hC.some_added hpos fun hnil => ?_
    have hz : blocks.length = 0 := by
      have := hperm.length_eq
      rw [hnil] at this
      simpa using this.symm
    have hb := List.eq_nil_of_length_eq_zero hz
    rw [hb] at hflat
    exact mergeUpserts_ne_nil hne hflat.symm

/-- What a flush takes out of the node `n`, which becomes `n'`: no vector is larger than a leaf takes. -/
structure Removed (N : NodeSizes) (n n' : BeInnerNode K V) (additional : List (Upsert K V))
    (map : MessageMap K V) : Prop where
  pivots : n'.pivots = n.pivots
  children : n'.children = n.children
  size : n'.size = n.size
  perm : (map.flatMap Prod.snd ++ n'.upserts.toList).Perm (n.allMessages additional)
  sorted : KeysSorted Upsert.key n'.upserts.toList
  size_le : n'.upserts.size ≤ N.INNER_B_N
  nodup : (map.map Prod.fst).Nodup
  vectors : ∀ e ∈ map, e.2 ≠ [] ∧ KeysSorted Upsert.key e.2 ∧ e.2.length ≤ N.MAX_FLUSH_SIZE ∧
    ∀ u ∈ e.2, lowerBound n.pivots n.size u.key = e.1
  few : map.length ≤ n.neededSlots N additional
  nonempty : 0 < n.neededSlots N additional → map ≠ []

theorem removeMessages_spec {N : NodeSizes} (O : Unspecified K V) {n : BeInnerNode K V}
    {additional : List (Upsert K V)} (hsort : KeysSorted Upsert.key n.upserts.toList)
    (hadd : KeysSorted Upsert.key additional) (hne : additional ≠ [])
    (hmax : n.neededSlots N additional ≤ N.MAX_FLUSH_SIZE) :
    Removed N n (n.removeMessages N O additional N.MAX_FLUSH_SIZE).1 additional
      (n.removeMessages N O additional N.MAX_FLUSH_SIZE).2 := by
  have hD := removeMessages_divided O hsort hadd hne hmax
  refine ⟨hD.pivots, hD.children, hD.size, hD.perm, hD.sorted, hD.size_le, hD.nodup, fun e he => ?_,
    hD.few, hD.nonempty⟩
  obtain ⟨hnil, hs, hroute⟩ := hD.vectors e he
  have hsub : e.2.Sublist (List.flatMap Prod.snd _) := List.sublist_flatten_of_mem (List.mem_map_of_mem he)
  have hle := hsub.length_le
  exact ⟨hnil, hs, hle.trans hD.removed_le, hroute⟩

/-- `removeMessages` divides the merged messages into a sorted buffer that fits and one nonempty sorted
vector for each of some children; it takes out as many messages as needed and not more than allowed, and
exactly one vector when one slot is needed. -/
theorem removeMessages_divides (N : NodeSizes) (O : Unspecified K V) (n : BeInnerNode K V)
    (additional : List (Upsert K V)) (maxRemoved : ℕ) (hsort : KeysSorted Upsert.key n.upserts.toList)
    (hadd : KeysSorted Upsert.key additional) (hne : additional ≠ [])
    (hpos : 0 < n.neededSlots N additional) (hmax : n.neededSlots N additional ≤ maxRemoved) :
    ∃ n' map, n.removeMessages N O additional maxRemoved = (n', map) ∧
      n'.pivots = n.pivots ∧ n'.children = n.children ∧ n'.size = n.size ∧
      (n'.upserts.toList ++ map.flatMap Prod.snd).Perm (mergeUpserts n.upserts.toList additional) ∧
      KeysSorted Upsert.key n'.upserts.toList ∧ n'.upserts.size ≤ N.INNER_B_N ∧
      (map.map Prod.fst).Nodup ∧
      (∀ e ∈ map, e.2 ≠ [] ∧ KeysSorted Upsert.key e.2 ∧
        ∀ u ∈ e.2, lowerBound n.pivots n.size u.key = e.1) ∧
      (map.flatMap Prod.snd).length ≤ maxRemoved ∧
      min (n.neededSlots N additional) (mergeUpserts n.upserts.toList additional).length ≤
        (map.flatMap Prod.snd).length ∧
      (n.neededSlots N additional = 1 → map.length = 1) := by
  have hD := removeMessages_divided O hsort hadd hne hmax
  refine ⟨_, _, rfl, hD.pivots, hD.children, hD.size, List.perm_append_comm.trans hD.perm, hD.sorted,
    hD.size_le, hD.nodup, hD.vectors, hD.removed_le, hD.le_removed, fun hone => ?_⟩
  exact le_antisymm (hone ▸ hD.few) (List.length_pos_iff.mpr (hD.nonempty hpos))

/-- A full buffer of one message takes one more. -/
theorem removeMessages_divides_one :
    ∃ n' map, (⟨⟨fun _ => ⟨3, 5, 1, .INSERT⟩, 1⟩, fun _ => 4, fun i => i, 1⟩ : BeInnerNode ℕ ℕ).removeMessages
      .smallest (.basic ℕ ℕ) [⟨7, 6, 2, .INSERT⟩] 2 = (n', map) ∧ map.length = 1 := by
  obtain ⟨n', map, he, -, -, -, -, -, -, -, -, -, -, hone⟩ := removeMessages_divides .smallest (.basic ℕ ℕ)
    ⟨⟨fun _ => ⟨3, 5, 1, .INSERT⟩, 1⟩, fun _ => 4, fun i => i, 1⟩ [⟨7, 6, 2, .INSERT⟩] 2
    (by simp [KeysSorted, UpsertBuffer.toList, Slots.toList]) (by simp [KeysSorted]) (by simp) (by decide)
    (by decide)
  exact ⟨n', map, he, hone (by decide)⟩

end Routine

end BEpsilon.BeTree
