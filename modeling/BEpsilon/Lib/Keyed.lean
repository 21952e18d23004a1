import Mathlib.Data.List.Nodup
import Mathlib.Data.List.Pairwise
import Mathlib.Order.Basic
import Mathlib.Order.Lattice
import Mathlib.Tactic.Common

/-!
# BEpsilon.Lib.Keyed — lists of items with a key

`seek key l k` is the first item of `l` with key `k`.  In a list whose keys are distinct it is the
only one, so that reordering the list does not matter and the items can be split into parts and put
together again.
-/

namespace BEpsilon.Keyed

variable {M K : Type} [DecidableEq K] {key : M → K} {l l' as bs : List M} {m : M} {k : K}

/-- The item with key `k`. -/
def seek (key : M → K) (l : List M) (k : K) : Option M := l.find? fun m => key m = k

/-- No two items have the same key. -/
def DistinctKeys (key : M → K) (l : List M) : Prop := (l.map key).Nodup

@[simp] theorem seek_nil : seek key [] k = none := rfl

theorem seek_cons : seek key (m :: l) k = if key m = k then some m else seek key l k := by
  rw [seek, List.find?_cons]
  split
  next h => rw [if_pos (by simpa using h)]
  next h => rw [if_neg (by simpa using h), seek]

theorem seek_mem (h : seek key l k = some m) : m ∈ l := List.mem_of_find?_eq_some h

theorem seek_key (h : seek key l k = some m) : key m = k := by
  simpa using List.find?_some h

theorem seek_eq_none : seek key l k = none ↔ ∀ m ∈ l, key m ≠ k := by
  simp [seek, List.find?_eq_none]

theorem seek_append : seek key (as ++ bs) k = (seek key as k).or (seek key bs k) :=
  List.find?_append

omit [DecidableEq K] in
theorem DistinctKeys.inj (h : DistinctKeys key l) {a b : M} (ha : a ∈ l) (hb : b ∈ l)
    (e : key a = key b) : a = b := List.inj_on_of_nodup_map h ha hb e

/-- With distinct keys an item is found by its key. -/
theorem DistinctKeys.seek_iff (h : DistinctKeys key l) :
    seek key l k = some m ↔ m ∈ l ∧ key m = k := by
  refine ⟨fun hs => ⟨seek_mem hs, seek_key hs⟩, ?_⟩
  rintro ⟨hm, rfl⟩
  cases hs : seek key l (key m) with
  | none => exact absurd rfl (seek_eq_none.mp hs m hm)
  | some m' => rw [h.inj (seek_mem hs) hm (seek_key hs)]

theorem DistinctKeys.seek_self (h : DistinctKeys key l) (hm : m ∈ l) : seek key l (key m) = some m :=
  h.seek_iff.mpr ⟨hm, rfl⟩

/-- At most one item has the key. -/
theorem DistinctKeys.filter_eq (h : DistinctKeys key l) (k : K) :
    l.filter (fun m => key m = k) = (seek key l k).toList := by
  induction l with
  | nil => rfl
  | cons m l ih =>
    obtain ⟨hm, hl⟩ := List.nodup_cons.mp h
    rw [List.filter_cons, seek_cons]
    by_cases e : key m = k
    · have hnone : seek key l k = none := seek_eq_none.mpr fun a ha e' =>
        hm (e.trans e'.symm ▸ List.mem_map_of_mem ha)
      rw [if_pos (by simpa using e), if_pos e, ih hl, hnone]
      rfl
    · rw [if_neg (by simpa using e), if_neg e, ih hl]

omit [DecidableEq K] in
theorem DistinctKeys.perm (h : DistinctKeys key l) (hp : l.Perm l') : DistinctKeys key l' :=
  (hp.map key).nodup_iff.mp h

omit [DecidableEq K] in
theorem DistinctKeys.sublist (h : DistinctKeys key l) (hs : l'.Sublist l) : DistinctKeys key l' :=
  (hs.map key).nodup h

/-- The order does not matter. -/
theorem DistinctKeys.seek_perm (h : DistinctKeys key l) (hp : l.Perm l') (k : K) :
    seek key l' k = seek key l k := by
  ext m
  rw [(h.perm hp).seek_iff, h.seek_iff, hp.mem_iff]

/-- A list that is put together from two parts has the items of both. -/
theorem DistinctKeys.seek_parts (h : DistinctKeys key l) (hp : l.Perm (as ++ bs)) (k : K) :
    seek key l k = (seek key as k).or (seek key bs k) := by
  rw [← h.seek_perm hp k, seek_append]

omit [DecidableEq K] in
theorem distinctKeys_append : DistinctKeys key (as ++ bs) ↔
    DistinctKeys key as ∧ DistinctKeys key bs ∧ ∀ a ∈ as, ∀ b ∈ bs, key a ≠ key b := by
  rw [DistinctKeys, List.map_append, List.nodup_append]
  simp only [List.mem_map, forall_exists_index, and_imp, forall_apply_eq_imp_iff₂]
  rfl

/-- An item of one part is in no other part. -/
theorem DistinctKeys.seek_rest (h : DistinctKeys key l) (hp : l.Perm (as ++ bs))
    (hk : (seek key as k).isSome) : seek key bs k = none := by
  obtain ⟨a, ha⟩ := Option.isSome_iff_exists.mp hk
  refine seek_eq_none.mpr fun b hb e => ?_
  exact (distinctKeys_append.mp (h.perm hp)).2.2 a (seek_mem ha) b hb ((seek_key ha).trans e.symm)

/-! ### Sorted by key -/

section Sorted

variable [LinearOrder K]

/-- The keys increase strictly. -/
def KeysSorted (key : M → K) (l : List M) : Prop := l.Pairwise fun a b => key a < key b

omit [DecidableEq K] in
theorem KeysSorted.distinct (h : KeysSorted key l) : DistinctKeys key l :=
  List.Pairwise.map key (fun _ _ hab => hab.ne) h

omit [DecidableEq K] in
theorem KeysSorted.sublist (h : KeysSorted key l) (hs : l'.Sublist l) : KeysSorted key l' :=
  List.Pairwise.sublist hs h

omit [DecidableEq K] in
theorem keysSorted_cons : KeysSorted key (m :: l) ↔ (∀ b ∈ l, key m < key b) ∧ KeysSorted key l :=
  List.pairwise_cons

omit [DecidableEq K] in
theorem keysSorted_append : KeysSorted key (as ++ bs) ↔
    KeysSorted key as ∧ KeysSorted key bs ∧ ∀ a ∈ as, ∀ b ∈ bs, key a < key b :=
  List.pairwise_append

/-- Below the first key there is nothing. -/
theorem KeysSorted.seek_lt (h : KeysSorted key (m :: l)) (hk : k < key m) :
    seek key (m :: l) k = none := by
  refine seek_eq_none.mpr fun a ha => ?_
  rcases List.mem_cons.mp ha with rfl | ha
  · exact hk.ne'
  · exact (hk.trans ((keysSorted_cons.mp h).1 a ha)).ne'

/-- Where no item lies below `k`, the items with key `k` come first. -/
theorem KeysSorted.takeWhile_eq_filter (h : KeysSorted key l) (hk : ∀ m ∈ l, k ≤ key m) :
    l.takeWhile (fun m => key m = k) = l.filter fun m => key m = k := by
  cases l with
  | nil => rfl
  | cons m l =>
    obtain ⟨hgt, -⟩ := keysSorted_cons.mp h
    have hm : k ≤ key m := hk m List.mem_cons_self
    have hrest : ∀ b ∈ l, ¬ key b = k := fun b hb => (hm.trans_lt (hgt b hb)).ne'
    have hnone : l.filter (fun m => key m = k) = [] := by
      rw [List.filter_eq_nil_iff]
      intro b hb
      simpa using hrest b hb
    rw [List.takeWhile_cons, List.filter_cons, hnone]
    by_cases e : key m = k
    · rw [if_pos (by simpa using e), if_pos (by simpa using e)]
      cases l with
      | nil => rfl
      | cons b l => rw [List.takeWhile_cons, if_neg (by simpa using hrest b List.mem_cons_self)]
    · rw [if_neg (by simpa using e), if_neg (by simpa using e)]

end Sorted

end BEpsilon.Keyed
