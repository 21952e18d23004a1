import BEpsilon.BeTree.Upsert
import Mathlib.Data.List.MinMax

/-!
# BEpsilon.BeTree.Merge — merging composes messages

What `mergeUpserts` makes of two buffers: the messages of the keys that only one of them has, and for a
key that both have one message that acts as the older one followed by the newer one.  A squashed message
keeps a stamp between those of its parts, so it can be squashed again.
-/

namespace BEpsilon.BeTree

open Keyed

variable {K V : Type} [LinearOrder K] [Add V] {as bs : List (Upsert K V)} {a b : Upsert K V} {k : K}

/-- A key of one of the ranges is a key of the merged range. -/
theorem mergeUpserts_keys (ha : KeysSorted Upsert.key as) (hb : KeysSorted Upsert.key bs) (k : K) :
    (∃ u ∈ mergeUpserts as bs, u.key = k) ↔ (∃ a ∈ as, a.key = k) ∨ ∃ b ∈ bs, b.key = k := by
  have hseek : ∀ l : List (Upsert K V), (∃ u ∈ l, u.key = k) ↔ seek Upsert.key l k ≠ none := by
    intro l
    rw [ne_eq, seek_eq_none]
    push Not
    rfl
  rw [hseek, hseek, hseek, seek_mergeUpserts ha hb]
  cases seek Upsert.key as k <;> cases seek Upsert.key bs k <;> simp

/-- A message stays as it is where the other range does not have its key. -/
theorem mergeUpserts_left (ha : KeysSorted Upsert.key as) (hb : KeysSorted Upsert.key bs) (hu : a ∈ as)
    (hk : ∀ b ∈ bs, b.key ≠ a.key) : a ∈ mergeUpserts as bs := by
  have h := seek_mergeUpserts ha hb a.key
  rw [ha.distinct.seek_self hu, seek_eq_none.mpr hk] at h
  exact seek_mem h

theorem mergeUpserts_right (ha : KeysSorted Upsert.key as) (hb : KeysSorted Upsert.key bs) (hu : b ∈ bs)
    (hk : ∀ a ∈ as, a.key ≠ b.key) : b ∈ mergeUpserts as bs := by
  have h := seek_mergeUpserts ha hb b.key
  rw [hb.distinct.seek_self hu, seek_eq_none.mpr hk] at h
  exact seek_mem h

/-- Two messages of one key are squashed. -/
theorem mergeUpserts_shared (ha : KeysSorted Upsert.key as) (hb : KeysSorted Upsert.key bs) (hua : a ∈ as)
    (hub : b ∈ bs) (hk : a.key = b.key) : squashUpserts a b ∈ mergeUpserts as bs := by
  have h := seek_mergeUpserts ha hb a.key
  rw [ha.distinct.seek_self hua, hk, hb.distinct.seek_self hub] at h
  exact seek_mem h

/-- A squashed message acts as the message with the smaller stamp followed by the other. -/
theorem squashUpserts_effect [Std.Associative (α := V) (· + ·)] (ha : a.type ≠ .INVALID)
    (hb : b.type ≠ .INVALID) (hk : a.key = b.key) (ht : a.timeStamp ≠ b.timeStamp) (o : Option V) :
    (squashUpserts a b).effect o =
      if a.timeStamp < b.timeStamp then b.effect (a.effect o) else a.effect (b.effect o) := by
  split
  next hlt => rw [squashUpserts_of_lt hk hlt, squashOrdered_effect ha hb]
  next hlt =>
    rw [squashUpserts_of_gt hk (lt_of_le_of_ne (not_lt.mp hlt) ht.symm), squashOrdered_effect hb ha]

/-- Merging two sorted buffers gives a sorted buffer with the keys of both, the messages of unshared keys,
and for each shared key a message that acts as the older message followed by the newer one; and along any
brackets a chain of messages for one key squashes to a message that acts as all of them in order. -/
theorem mergeUpserts_composes [Std.Associative (α := V) (· + ·)] :
    (∀ as bs : List (Upsert K V), KeysSorted Upsert.key as → KeysSorted Upsert.key bs →
      (∀ a ∈ as, a.type ≠ .INVALID) → (∀ b ∈ bs, b.type ≠ .INVALID) →
      (∀ a ∈ as, ∀ b ∈ bs, a.key = b.key → a.timeStamp ≠ b.timeStamp) →
      KeysSorted Upsert.key (mergeUpserts as bs) ∧
        (∀ k, (∃ u ∈ mergeUpserts as bs, u.key = k) ↔ (∃ a ∈ as, a.key = k) ∨ ∃ b ∈ bs, b.key = k) ∧
        (∀ a ∈ as, (∀ b ∈ bs, b.key ≠ a.key) → a ∈ mergeUpserts as bs) ∧
        (∀ b ∈ bs, (∀ a ∈ as, a.key ≠ b.key) → b ∈ mergeUpserts as bs) ∧
        ∀ a ∈ as, ∀ b ∈ bs, a.key = b.key → ∃ u ∈ mergeUpserts as bs, u.key = a.key ∧
          ∀ o, u.effect o =
            if a.timeStamp < b.timeStamp then b.effect (a.effect o) else a.effect (b.effect o)) ∧
    ∀ (t : Bracketing (Upsert K V)) (k : K), (∀ u ∈ t.chain, u.key = k ∧ u.type ≠ .INVALID) →
      (t.chain.Pairwise fun a b => a.timeStamp < b.timeStamp) →
      (t.squashed squashUpserts).key = k ∧
        ∀ o, (t.squashed squashUpserts).effect o = t.chain.foldl (fun o u => u.effect o) o := by
  refine ⟨fun as bs ha hb hva hvb ht => ⟨mergeUpserts_sorted ha hb, mergeUpserts_keys ha hb,
    fun a hua => mergeUpserts_left ha hb hua, fun b hub => mergeUpserts_right ha hb hub,
    fun a hua b hub hk => ?_⟩, fun t k hu hs => ?_⟩
  · exact ⟨_, mergeUpserts_shared ha hb hua hub hk, squashUpserts_key hk,
      squashUpserts_effect (hva a hua) (hvb b hub) hk (ht a hua b hub hk)⟩
  · -- the largest stamp of the chain bounds all of them
    obtain ⟨T, hT⟩ : ∃ T, ∀ u ∈ t.chain, u.timeStamp ≤ T := by
      refine ⟨(t.chain.map Upsert.timeStamp).foldr max 0, fun u hm => ?_⟩
      exact List.le_max_of_le' 0 (List.mem_map_of_mem hm) le_rfl
    have hgood : ∀ u ∈ t.chain, u.For (fun _ => T) k := fun u hm => ⟨(hu u hm).1, (hu u hm).2, hT u hm⟩
    obtain ⟨hfor, -, -, heffect⟩ := Bracketing.squashed_spec (upsertLaws fun _ => T) hgood hs
    exact ⟨hfor.key_eq, heffect⟩

/-- An insertion and a later update of one key, beside two unshared keys. -/
theorem mergeUpserts_composes_small :
    ∃ u ∈ mergeUpserts (K := ℕ) (V := ℕ) [⟨1, 5, 3, .INSERT⟩, ⟨4, 9, 2, .DELETE⟩]
      [⟨1, 2, 7, .UPDATE⟩, ⟨2, 0, 8, .INSERT⟩], u.key = 1 ∧ u.effect none = some 7 := by
  obtain ⟨-, -, -, -, h⟩ := mergeUpserts_composes.1
    [⟨1, 5, 3, .INSERT⟩, ⟨4, 9, 2, .DELETE⟩] [(⟨1, 2, 7, .UPDATE⟩ : Upsert ℕ ℕ), ⟨2, 0, 8, .INSERT⟩]
    (by simp [KeysSorted]) (by simp [KeysSorted]) (by simp) (by simp) (by simp)
  obtain ⟨u, hu, hk, heffect⟩ := h ⟨1, 5, 3, .INSERT⟩ (by simp) ⟨1, 2, 7, .UPDATE⟩ (by simp) rfl
  exact ⟨u, hu, hk, heffect none⟩

end BEpsilon.BeTree
