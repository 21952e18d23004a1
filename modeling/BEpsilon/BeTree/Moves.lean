import BEpsilon.BeTree.Tree

/-!
# BEpsilon.BeTree.Moves — where the messages are after a step

A flush hands messages of a page to a child, which merges them with its own; at the bottom a message is
applied to a leaf; a call puts its message into the buffer below the root.  On the levels of waiting
messages these steps are `push`, `leave` with `settle`, and `post`.
-/

namespace BEpsilon.BeTree

open Slots Keyed

variable {K V : Type} [LinearOrder K]
variable {ids : ℕ → PageId} {N : NodeSizes} {mem mem' : PageId → Option (BeNode K V)}
  {F F' : PageId → List (Upsert K V)} {header : Header} {created H : ℕ} {pg : ℕ → K → PageId}

/-- Is there a message for the key? -/
def hasMessage (v : List (Upsert K V)) (k : K) : Bool := (seek Upsert.key v k).isSome

theorem hasMessage_iff {v : List (Upsert K V)} {k : K} :
    hasMessage v k = true ↔ ∃ u ∈ v, u.key = k := by
  constructor
  · intro h
    obtain ⟨u, hu⟩ := Option.isSome_iff_exists.mp h
    exact ⟨u, seek_mem hu, seek_key hu⟩
  · rintro ⟨u, hu, e⟩
    by_contra hn
    refine seek_eq_none.mp ?_ u hu e
    simpa [hasMessage] using hn

theorem levels_apply {h : ℕ} (hh : h ≤ H) (k : K) :
    levels mem F pg H h k = seek Upsert.key (waitingAt mem F (pg h k)) k := if_pos hh

theorem levels_congr {h : ℕ} {k : K}
    (hw : h ≤ H → waitingAt mem' F' (pg h k) = waitingAt mem F (pg h k)) :
    levels mem' F' pg H h k = levels mem F pg H h k := by
  unfold levels
  split
  next hh => rw [hw hh]
  next => rfl

theorem leafEntry_of_leaf {k : K} {n : BeLeafNode K V} (hn : mem (pg 0 k) = some (.leaf n)) :
    leafEntry mem pg k = n.get k := by
  rw [leafEntry, hn]

/-- The leaf on the path of `key` says something else about `key`. -/
theorem leafEntry_set_leaf {key : K} {o : Option V}
    {n n' : BeLeafNode K V} (hn : mem (pg 0 key) = some (.leaf n)) (hset : LeafSet n n' key o) :
    leafEntry (Function.update mem (pg 0 key) (some (.leaf n'))) pg =
      Function.update (leafEntry mem pg) key o := by
  funext k
  by_cases hk : k = key
  · subst hk
    rw [leafEntry_of_leaf (Function.update_self _ _ _), hset.get, if_pos rfl, Function.update_self]
  · rw [Function.update_of_ne hk]
    by_cases e : pg 0 k = pg 0 key
    · rw [leafEntry_of_leaf (n := n') (by rw [e, Function.update_self]), hset.get, if_neg hk,
        leafEntry_of_leaf (by rw [e, hn])]
    · rw [leafEntry, leafEntry, Function.update_of_ne e]

namespace TreeInv

section Leave

variable {c : PageId} {g : ℕ} {v : List (Upsert K V)}

/-- The messages `v` that have left the page `c` of height `g` are gone from that level. -/
theorem seek_left (hT : TreeInv ids N mem F header created H pg) (hg : g ≤ H) {k : K} (hk : pg g k = c)
    (hFc : (F c).Perm (v ++ F' c)) (hmem : mem' c = mem c) :
    levels mem' F' pg H g k = if hasMessage v k then none else levels mem F pg H g k := by
  subst hk
  have hd := (hT.waiting g hg k).distinct
  have hp : (waitingAt mem F (pg g k)).Perm (v ++ waitingAt mem' F' (pg g k)) := by
    rw [waitingAt, waitingAt, hmem, ← List.append_assoc]
    exact hFc.append_right _
  rw [levels_apply hg, levels_apply hg]
  split
  next h => exact hd.seek_rest hp h
  next h =>
    rw [hd.seek_parts hp k, Option.not_isSome_iff_eq_none.mp h, Option.none_or]

/-- Before, they were there. -/
theorem seek_before (hT : TreeInv ids N mem F header created H pg) (hg : g ≤ H) {k : K} (hk : pg g k = c)
    (hFc : (F c).Perm (v ++ F' c)) (hv : hasMessage v k = true) :
    levels mem F pg H g k = seek Upsert.key v k := by
  subst hk
  have hp : (waitingAt mem F (pg g k)).Perm (v ++ (F' (pg g k) ++ (mem (pg g k)).elim [] BeNode.messages)) := by
    rw [waitingAt, ← List.append_assoc]
    exact hFc.append_right _
  rw [levels_apply hg, (hT.waiting g hg k).distinct.seek_parts hp k]
  obtain ⟨u, hu⟩ := Option.isSome_iff_exists.mp hv
  rw [hu, Option.some_or]

end Leave

/-- Messages of page `c` go to its child, which merges them with its own. -/
theorem levels_push [Add V] (hT : TreeInv ids N mem F header created H pg) {g : ℕ} (hg : g + 2 ≤ H)
    {k₀ : K} {n n' : BeInnerNode K V} {v : List (Upsert K V)}
    (hn : mem (pg (g + 1) k₀) = some (.inner n)) (hFq : F (pg (g + 1) k₀) = [])
    (hns : KeysSorted Upsert.key n.upserts.toList) (hvs : KeysSorted Upsert.key v)
    (hrange : ∀ u ∈ v, pg (g + 1) u.key = pg (g + 1) k₀)
    (hmerge : (F' (pg (g + 1) k₀) ++ n'.upserts.toList).Perm (mergeUpserts n.upserts.toList v))
    (hFc : (F (pg (g + 2) k₀)).Perm (v ++ F' (pg (g + 2) k₀)))
    (hF : ∀ id, id ≠ pg (g + 1) k₀ → id ≠ pg (g + 2) k₀ → F' id = F id) :
    levels (Function.update mem (pg (g + 1) k₀) (some (.inner n'))) F' pg H =
      Levels.push squashUpserts (levels mem F pg H) (g + 1) (hasMessage v) := by
  set mem' := Function.update mem (pg (g + 1) k₀) (some (.inner n')) with hmem'
  have hcq : pg (g + 2) k₀ ≠ pg (g + 1) k₀ := hT.routed.page_ne hg (by omega) (by omega)
  -- the messages are for keys below the child
  have hbelow : ∀ k, hasMessage v k = true → pg (g + 1) k = pg (g + 1) k₀ := by
    intro k hk
    obtain ⟨u, hu, rfl⟩ := hasMessage_iff.mp hk
    exact hrange u hu
  funext h k
  by_cases hc : h ≤ H ∧ pg h k = pg (g + 2) k₀
  · -- the page they come from
    obtain ⟨hh, hc⟩ := hc
    obtain rfl := hT.routed.level _ _ _ _ hh hg hc
    rw [hT.seek_left hh hc hFc (by rw [hmem', Function.update_of_ne hcq])]
    simp only [Levels.push, if_true]
  by_cases hq : h ≤ H ∧ pg h k = pg (g + 1) k₀
  · -- the page they go to
    obtain ⟨hh, hq⟩ := hq
    obtain rfl := hT.routed.level _ _ _ _ hh (by omega) hq
    have hnew : levels mem' F' pg H (g + 1) k =
        Option.merge squashUpserts (levels mem F pg H (g + 1) k) (seek Upsert.key v k) := by
      rw [levels_apply hh, levels_apply hh, hq, waitingAt_inner hn, hFq, List.nil_append,
        waitingAt_inner (by rw [hmem', Function.update_self]), ← seek_mergeUpserts hns hvs]
      exact (mergeUpserts_sorted hns hvs).distinct.seek_perm hmerge.symm k
    rw [hnew, Levels.push]
    split
    next hk =>
      rw [if_neg (by omega), if_pos rfl, hT.seek_before hg (hT.routed.parent _ (by omega) _ _ hq) hFc hk]
    next hk =>
      rw [Option.not_isSome_iff_eq_none.mp hk, Option.merge_none_right]
  · -- the other pages
    rw [levels_congr fun hh => ?_, Levels.push]
    · split
      next hk =>
        have h₁ : h ≠ g + 1 := fun e => hq ⟨by omega, by rw [e, hbelow k hk]⟩
        have h₂ : h ≠ g + 2 := fun e =>
          hc ⟨by omega, by rw [e]; exact hT.routed.parent _ (by omega) _ _ (hbelow k hk)⟩
        rw [if_neg h₂, if_neg h₁]
      next => rfl
    · have h₁ : pg h k ≠ pg (g + 1) k₀ := fun e => hq ⟨hh, e⟩
      rw [waitingAt, waitingAt, hmem', Function.update_of_ne h₁, hF _ h₁ fun e => hc ⟨hh, e⟩]

/-- A new message comes to an inner node. -/
theorem levels_post [Add V] (hT : TreeInv ids N mem F header created H pg) {g : ℕ} (hg : g + 1 ≤ H)
    {u : Upsert K V} {n n' : BeInnerNode K V}
    (hn : mem (pg (g + 1) u.key) = some (.inner n)) (hFq : F (pg (g + 1) u.key) = [])
    (hns : KeysSorted Upsert.key n.upserts.toList)
    (hmerge : (F' (pg (g + 1) u.key) ++ n'.upserts.toList).Perm (mergeUpserts n.upserts.toList [u]))
    (hF : ∀ id, id ≠ pg (g + 1) u.key → F' id = F id) :
    levels (Function.update mem (pg (g + 1) u.key) (some (.inner n'))) F' pg H =
      Levels.post squashUpserts (levels mem F pg H) (g + 1) u.key u := by
  set mem' := Function.update mem (pg (g + 1) u.key) (some (.inner n')) with hmem'
  have hone : KeysSorted Upsert.key [u] := List.pairwise_singleton _ _
  funext h k
  by_cases hq : h ≤ H ∧ pg h k = pg (g + 1) u.key
  · obtain ⟨hh, hq⟩ := hq
    obtain rfl := hT.routed.level _ _ _ _ hh hg hq
    have hnew : levels mem' F' pg H (g + 1) k =
        Option.merge squashUpserts (levels mem F pg H (g + 1) k) (seek Upsert.key [u] k) := by
      rw [levels_apply hh, levels_apply hh, hq, waitingAt_inner hn, hFq, List.nil_append,
        waitingAt_inner (by rw [hmem', Function.update_self]), ← seek_mergeUpserts hns hone]
      exact (mergeUpserts_sorted hns hone).distinct.seek_perm hmerge.symm k
    rw [hnew, Levels.post, seek_cons]
    by_cases hk : k = u.key
    · subst hk
      rw [if_pos rfl, if_pos ⟨rfl, rfl⟩]
    · rw [if_neg (Ne.symm hk), if_neg fun h => hk h.2, seek_nil, Option.merge_none_right]
  · rw [levels_congr fun hh => ?_, Levels.post, if_neg]
    · rintro ⟨rfl, rfl⟩
      exact hq ⟨hg, rfl⟩
    · have h₁ : pg h k ≠ pg (g + 1) u.key := fun e => hq ⟨hh, e⟩
      rw [waitingAt, waitingAt, hmem', Function.update_of_ne h₁, hF _ h₁]

/-- A message that waited above the leaves is applied to a leaf. -/
theorem levels_settle (hT : TreeInv ids N mem F header created H pg) (hH : 1 ≤ H) {u : Upsert K V}
    {n' : BeLeafNode K V} (hFc : (F (pg 1 u.key)).Perm (u :: F' (pg 1 u.key)))
    (hF : ∀ id, id ≠ pg 1 u.key → F' id = F id) :
    levels (Function.update mem (pg 0 u.key) (some (.leaf n'))) F' pg H =
      Levels.leave (levels mem F pg H) (fun k => decide (k = u.key)) := by
  set mem' := Function.update mem (pg 0 u.key) (some (.leaf n')) with hmem'
  have h10 : pg 1 u.key ≠ pg 0 u.key := hT.routed.page_ne hH (Nat.zero_le _) (by omega)
  have hone : ∀ k, hasMessage [u] k = decide (k = u.key) := fun k => by
    rw [Bool.eq_iff_iff, hasMessage_iff]
    simp [eq_comm]
  funext h k
  by_cases hc : h ≤ H ∧ pg h k = pg 1 u.key
  · obtain ⟨hh, hc⟩ := hc
    obtain rfl := hT.routed.level _ _ _ _ hh hH hc
    rw [hT.seek_left (v := [u]) hh hc hFc (by rw [hmem', Function.update_of_ne h10]), hone, Levels.leave]
    simp only [true_and]
  · have hsame : ¬ (h = 1 ∧ decide (k = u.key) = true) := by
      rintro ⟨rfl, hk⟩
      exact hc ⟨hH, by rw [of_decide_eq_true hk]⟩
    rw [Levels.leave, if_neg hsame]
    refine levels_congr fun hh => ?_
    have h₁ : pg h k ≠ pg 1 u.key := fun e => hc ⟨hh, e⟩
    by_cases e : pg h k = pg 0 u.key
    · obtain ⟨n, hn, -⟩ := hT.leaf_page u.key
      rw [e, hT.waitingAt_nil (by simp [hn]), waitingAt, hmem', Function.update_self, hF _ h10.symm]
      by_cases hnil : F (pg 0 u.key) = []
      · rw [hnil]
        rfl
      · obtain ⟨m, hm⟩ := hT.flying _ hnil
        simp [hn] at hm
    · rw [waitingAt, waitingAt, hmem', Function.update_of_ne e, hF _ h₁]

/-! ### Leaf entries -/

/-- Above the leaves nothing concerns the leaf entries. -/
theorem leafEntry_set_inner (hT : TreeInv ids N mem F header created H pg) {g : ℕ} (hg : g + 1 ≤ H)
    (k₀ : K) (d : BeNode K V) :
    leafEntry (Function.update mem (pg (g + 1) k₀) (some d)) pg = leafEntry mem pg := by
  funext k
  rw [leafEntry, leafEntry, Function.update_of_ne (hT.routed.page_ne (Nat.zero_le _) hg (by omega))]

end TreeInv

/-! ### The content of the tree -/

/-- The message is later than the bound for its key, and `T'` bounds it as well. -/
structure Newest (T : K → ℕ) (u : Upsert K V) (T' : K → ℕ) : Prop where
  lt : T u.key < u.timeStamp
  le : u.timeStamp ≤ T' u.key
  mono : T ≤ T'

omit [LinearOrder K] in
/-- One bound for all keys. -/
theorem Newest.const {T T' : ℕ} {u : Upsert K V} (hlt : T < u.timeStamp) (hle : u.timeStamp ≤ T') :
    Newest (fun _ => T) u fun _ => T' :=
  ⟨hlt, hle, fun _ => (hlt.trans_le hle).le⟩

/-- The messages are ordered by their stamps, none for `k` is later than `T k`, and where `+` is associative
or no page has a buffer they give the map `C` together with the leaf entries. -/
structure Held [Add V] (T : K → ℕ) (mem : PageId → Option (BeNode K V)) (F : PageId → List (Upsert K V))
    (pg : ℕ → K → PageId) (H : ℕ) (C : K → Option V) : Prop where
  ordered : Levels.Ordered (Upsert.For T) Upsert.timeStamp (levels mem F pg H)
  content : H ≤ 1 ∨ Std.Associative (α := V) (· + ·) →
    ∀ k, Levels.content Upsert.effect (levels mem F pg H) (leafEntry mem pg) H k = C k

namespace Held

variable [Add V] {T T' : K → ℕ} {C : K → Option V} {pg' : ℕ → K → PageId} {B : ℕ → K → Option (Upsert K V)}

/-- Only the levels and the leaf entries count. -/
theorem congr (hH : Held T mem F pg H C) (hl : levels mem' F' pg' H = levels mem F pg H)
    (he : leafEntry mem' pg' = leafEntry mem pg) : Held T mem' F' pg' H C :=
  ⟨hl ▸ hH.ordered, fun ha k => by rw [hl, he]; exact hH.content ha k⟩

/-- Time passes. -/
theorem mono (hH : Held T mem F pg H C) (hT : T ≤ T') : Held T' mem F pg H C where
  ordered := ⟨fun h k m hm =>
    have hg := hH.ordered.all_good h k m hm
    ⟨hg.key_eq, hg.valid, hg.stamp_le.trans (hT k)⟩, hH.ordered.stamps⟩
  content := hH.content

theorem push (hH : Held T mem F pg H C) {h : ℕ} {P : K → Bool} (h1 : 1 ≤ h) (hn : h + 1 ≤ H)
    (hl : levels mem' F' pg H = Levels.push squashUpserts (levels mem F pg H) h P)
    (he : leafEntry mem' pg = leafEntry mem pg) : Held T mem' F' pg H C where
  ordered := hl ▸ Levels.ordered_push (upsertLaws_order T) hH.ordered
  content ha k := by
    have hassoc : Std.Associative (α := V) (· + ·) := ha.resolve_left (by omega)
    rw [hl, he, Levels.content_push (upsertLaws T) hH.ordered h1 hn]
    exact hH.content ha k

theorem settle (hH : Held T mem F pg H C) {P : K → Bool} (hn : 1 ≤ H)
    (hl : levels mem' F' pg H = Levels.leave (levels mem F pg H) P)
    (he : leafEntry mem' pg = Levels.settle Upsert.effect (levels mem F pg H) (leafEntry mem pg) P) :
    Held T mem' F' pg H C where
  ordered := hl ▸ Levels.ordered_leave hH.ordered
  content ha k := by
    rw [hl, he, Levels.content_settle hn]
    exact hH.content ha k

/-- A message that is newer than all messages of its key comes to the top. -/
theorem post (hH : Held T mem F pg H C) {h : ℕ} {u : Upsert K V} (h1 : 1 ≤ h) (hn : h ≤ H) (h2 : 2 ≤ H)
    (hu : u.For T u.key) (hnew : ∀ g m, levels mem F pg H g u.key = some m → m.timeStamp < u.timeStamp)
    (htop : ∀ g, h < g → levels mem F pg H g u.key = none)
    (hl : levels mem' F' pg H = Levels.post squashUpserts (levels mem F pg H) h u.key u)
    (he : leafEntry mem' pg = leafEntry mem pg) :
    Held T mem' F' pg H (Function.update C u.key (u.effect (C u.key))) where
  ordered := hl ▸ Levels.ordered_post (upsertLaws_order T) hH.ordered hu hnew htop
  content ha k := by
    have hassoc : Std.Associative (α := V) (· + ·) := ha.resolve_left (by omega)
    rw [hl, he]
    by_cases hk : k = u.key
    · rw [hk, Function.update_self, Levels.content_post (upsertLaws T) hH.ordered hu hnew h1 htop hn,
        hH.content ha]
    · rw [Function.update_of_ne hk, ← hH.content ha k]
      exact Levels.content_congr (fun g _ _ => Levels.post_other hk) rfl

/-- A leaf entry changes below which no message waits. -/
theorem set_entry (hH : Held T mem F pg H C) {key : K} {u : Upsert K V}
    (hnone : ∀ g, levels mem F pg H g key = none) (hl : levels mem' F' pg H = levels mem F pg H)
    (he : leafEntry mem' pg = Function.update (leafEntry mem pg) key (u.effect (leafEntry mem pg key))) :
    Held T mem' F' pg H (Function.update C key (u.effect (C key))) where
  ordered := hl ▸ hH.ordered
  content ha k := by
    have habove : ∀ (L : K → Option V),
        Levels.content Upsert.effect (levels mem F pg H) L H key = L key := fun L => by
      rw [Levels.content_above (Nat.zero_le H) fun g _ => hnone g]
      rfl
    rw [hl, he]
    by_cases hk : k = key
    · rw [hk, habove, Function.update_self, Function.update_self, ← hH.content ha key, habove]
    · rw [Function.update_of_ne hk, ← hH.content ha k]
      exact Levels.content_congr (fun _ _ _ => rfl) (Function.update_of_ne hk _ _)

end Held

end BEpsilon.BeTree
