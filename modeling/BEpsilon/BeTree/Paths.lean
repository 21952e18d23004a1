import Mathlib.Data.Finset.Card
import BEpsilon.BeTree.Keeps

/-!
# BEpsilon.BeTree.Paths — what lies on the path of a key

The messages for a key that wait on its path, and the leaf at the end of the path, as they are read off the pages.
-/

namespace BEpsilon.BeTree

open Slots Keyed

variable {K V : Type} [LinearOrder K]

/-- The messages for `key` on its path below `page`, the shallowest ones first. -/
def pathMessages (mem : PageId → Option (BeNode K V)) (key : K) : ℕ → PageId → List (Upsert K V)
  | 0, _ => []
  | fuel + 1, page =>
    match mem page with
    | some (.inner n) => (n.upserts.toList.filter fun u => u.key = key) ++
        pathMessages mem key fuel (n.children (lowerBound n.pivots n.size key))
    | some (.root n) => pathMessages mem key fuel (n.children (lowerBound n.pivots n.size key))
    | _ => []

/-- The leaf on the path of `key` below `page`. -/
def pathLeaf (mem : PageId → Option (BeNode K V)) (key : K) : ℕ → PageId → Option (BeLeafNode K V)
  | 0, _ => none
  | fuel + 1, page =>
    match mem page with
    | some (.leaf n) => some n
    | some (.inner n) => pathLeaf mem key fuel (n.children (lowerBound n.pivots n.size key))
    | some (.root n) => pathLeaf mem key fuel (n.children (lowerBound n.pivots n.size key))
    | none => none

namespace TreeInv

variable {ids : ℕ → PageId} {N : NodeSizes} {mem : PageId → Option (BeNode K V)} {header : Header}
  {created H : ℕ} {pg : ℕ → K → PageId} {key : K}

/-- The pages of a path are different, so that there are fewer levels than pages. -/
theorem height_lt (hT : TreeInv ids N mem noFlight header created H pg) (k : K) : H < created := by
  have hid : ∀ h ≤ H, ∃ i < created, ids i = pg h k := fun h hh => hT.known _ (hT.mem_page hh k)
  choose! f hf using hid
  have hcard : (Finset.range (H + 1)).card ≤ (Finset.range created).card := by
    refine Finset.card_le_card_of_injOn f (fun h hh => ?_) fun h hh h' hh' e => ?_
    · have hle : h ≤ H := by simpa [Nat.lt_succ_iff] using hh
      simpa using (hf h hle).1
    · have hle : h ≤ H := by simpa [Nat.lt_succ_iff] using hh
      have hle' : h' ≤ H := by simpa [Nat.lt_succ_iff] using hh'
      exact hT.routed.level _ _ _ _ hle hle' (by rw [← (hf h hle).2, e, (hf h' hle').2])
  rw [Finset.card_range, Finset.card_range] at hcard
  exact hcard

/-! ### Messages -/

/-- The messages for `key` in the buffer of an inner node on its path. -/
theorem filter_messages (hT : TreeInv ids N mem noFlight header created H pg) {key : K} {h : ℕ}
    (hh : h < H) {n : BeInnerNode K V} (hn : mem (pg h key) = some (.inner n)) :
    n.upserts.toList.filter (fun u => u.key = key) = (levels mem noFlight pg H h key).toList := by
  have hw : waitingAt mem noFlight (pg h key) = n.upserts.toList := by
    rw [waitingAt_inner hn]
    rfl
  rw [levels_apply hh.le, ← hw]
  exact (hT.waiting h hh.le key).distinct.filter_eq key

/-- The messages for `key` on its path are those of its levels. -/
theorem pathMessages_succ (hT : TreeInv ids N mem noFlight header created H pg) {key : K} {h fuel : ℕ}
    (hh : h < H) : pathMessages mem key (fuel + 1) (pg (h + 1) key) =
      (levels mem noFlight pg H (h + 1) key).toList ++ pathMessages mem key fuel (pg h key) := by
  rcases (by omega : h + 1 < H ∨ H = h + 1) with hlt | rfl
  · obtain ⟨n, hn, -, hchild⟩ := hT.inner_page hlt key
    rw [pathMessages, hn]
    dsimp only
    rw [hchild, hT.filter_messages hlt hn]
  · obtain ⟨n, hn, -, hchild⟩ := hT.root_page key
    rw [pathMessages, hT.routed.top, hn]
    dsimp only
    rw [hchild, hT.levels_top le_rfl]
    rfl

theorem pathMessages_zero (hT : TreeInv ids N mem noFlight header created H pg) {key : K} {fuel : ℕ} :
    pathMessages mem key fuel (pg 0 key) = [] := by
  obtain ⟨n, hn, -⟩ := hT.leaf_page key
  cases fuel with
  | zero => rfl
  | succ fuel => rw [pathMessages, hn]

theorem mem_pathMessages (hT : TreeInv ids N mem noFlight header created H pg) {key : K} {h fuel : ℕ}
    (hh : h ≤ H) {u : Upsert K V} (hu : u ∈ pathMessages mem key fuel (pg h key)) :
    ∃ g ≤ h, levels mem noFlight pg H g key = some u := by
  induction h generalizing fuel with
  | zero => simp [hT.pathMessages_zero] at hu
  | succ h ih =>
    cases fuel with
    | zero => simp [pathMessages] at hu
    | succ fuel =>
      rw [hT.pathMessages_succ hh] at hu
      rcases List.mem_append.mp hu with hu | hu
      · exact ⟨h + 1, le_rfl, by simpa using hu⟩
      · obtain ⟨g, hg, hl⟩ := ih (by omega) hu
        exact ⟨g, by omega, hl⟩

theorem pathMessages_of_level (hT : TreeInv ids N mem noFlight header created H pg) {g h fuel : ℕ} (hh : h ≤ H)
    (hfuel : h ≤ fuel) (hg : g ≤ h) {u : Upsert K V} (hu : levels mem noFlight pg H g key = some u) :
    u ∈ pathMessages mem key fuel (pg h key) := by
  induction h generalizing fuel with
  | zero =>
    obtain rfl := Nat.le_zero.mp hg
    rw [hT.levels_zero] at hu
    cases hu
  | succ h ih =>
    obtain ⟨fuel, rfl⟩ : ∃ f, fuel = f + 1 := ⟨fuel - 1, by omega⟩
    rw [hT.pathMessages_succ hh]
    rcases hg.eq_or_lt with rfl | hlt
    · rw [hu]
      exact List.mem_append_left _ (List.mem_singleton_self u)
    · exact List.mem_append_right _ (ih (by omega) (by omega) (by omega))

/-- The messages of the levels are on the path. -/
theorem level_mem_path (hT : TreeInv ids N mem noFlight header created H pg) {g : ℕ} {u : Upsert K V}
    (hu : levels mem noFlight pg H g key = some u) : u ∈ pathMessages mem key created header.rootID := by
  have hg : g ≤ H := by
    by_contra hlt
    rw [levels, if_neg hlt] at hu
    cases hu
  rw [← hT.routed.top key]
  exact hT.pathMessages_of_level le_rfl (hT.height_lt key).le hg hu

/-- Every message that waits is on the path of its key. -/
theorem waiting_mem_path (hT : TreeInv ids N mem noFlight header created H pg) {id : PageId} {u : Upsert K V}
    (hu : u ∈ waitingAt mem noFlight id) : u ∈ pathMessages mem u.key created header.rootID := by
  have hid : mem id ≠ none := fun e => by
    rw [waitingAt, e] at hu
    cases hu
  obtain ⟨i, hi, rfl⟩ := hT.known id hid
  obtain ⟨h, hh, k, e⟩ := hT.all i hi
  have hW := hT.waiting h hh k
  rw [← e] at hu
  refine hT.level_mem_path (g := h) ?_
  rw [levels_apply hh, hW.range u hu]
  exact hW.distinct.seek_self hu

/-! ### The leaf -/

theorem pathLeaf_eq (hT : TreeInv ids N mem noFlight header created H pg) {h fuel : ℕ} (hh : h ≤ H)
    (hfuel : h < fuel) {t : BeLeafNode K V} (ht : mem (pg 0 key) = some (.leaf t)) :
    pathLeaf mem key fuel (pg h key) = some t := by
  induction h generalizing fuel with
  | zero =>
    obtain ⟨fuel, rfl⟩ : ∃ f, fuel = f + 1 := ⟨fuel - 1, by omega⟩
    rw [pathLeaf, ht]
  | succ h ih =>
    obtain ⟨fuel, rfl⟩ : ∃ f, fuel = f + 1 := ⟨fuel - 1, by omega⟩
    rcases hh.lt_or_eq with hlt | rfl
    · obtain ⟨n, hn, -, hchild⟩ := hT.inner_page hlt key
      rw [pathLeaf, hn]
      dsimp only
      rw [hchild]
      exact ih (by omega) (by omega)
    · obtain ⟨n, hn, -, hchild⟩ := hT.root_page key
      rw [pathLeaf, hT.routed.top, hn]
      dsimp only
      rw [hchild]
      exact ih (by omega) (by omega)

end TreeInv

end BEpsilon.BeTree
