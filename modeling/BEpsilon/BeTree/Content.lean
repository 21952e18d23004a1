import BEpsilon.BeTree.Calls

/-!
# BEpsilon.BeTree.Content — what the Bε-tree holds

`content` reads the value of a key off the pages: the entry of the leaf on its path, with the buffered
messages of the path applied from the deepest node to the root.  After every call it is the plain map
after the same calls.
-/

namespace BEpsilon.BeTree

open Slots Keyed PageWorld

section Content

variable {K V : Type} [LinearOrder K] [Add V]

/-- What the messages of a buffer for `key` do to its value. -/
def applyMessages (key : K) (messages : List (Upsert K V)) (o : Option V) : Option V :=
  (messages.filter fun u => u.key = key).foldl (fun o u => u.effect o) o

/-- The value of `key` in the subtree below `page`, of a height less than `fuel`. -/
def contentBelow (mem : PageId → Option (BeNode K V)) (key : K) : ℕ → PageId → Option V
  | 0, _ => none
  | fuel + 1, page =>
    match mem page with
    | some (.leaf n) => lookup n.keys n.values n.size key
    | some (.inner n) =>
      applyMessages key n.upserts.toList
        (contentBelow mem key fuel (n.children (lowerBound n.pivots n.size key)))
    | some (.root n) => contentBelow mem key fuel (n.children (lowerBound n.pivots n.size key))
    | none => none

/-- The value of `key` in the tree; no path is longer than there are pages. -/
def content (w : PageWorld (BeNode K V) Header) (key : K) : Option V :=
  contentBelow w.mem key w.created w.header.rootID

theorem applyMessages_eq {key : K} {l : List (Upsert K V)} (h : DistinctKeys Upsert.key l) (o : Option V) :
    applyMessages key l o = Levels.act Upsert.effect (seek Upsert.key l key) o := by
  rw [applyMessages, h.filter_eq]
  cases seek Upsert.key l key <;> rfl

namespace TreeInv

variable {ids : ℕ → PageId} {N : NodeSizes} {mem : PageId → Option (BeNode K V)} {header : Header}
  {created H : ℕ} {pg : ℕ → K → PageId}

theorem contentBelow_eq (hT : TreeInv ids N mem noFlight header created H pg) (k : K) {h fuel : ℕ}
    (hh : h ≤ H) (hfuel : h < fuel) :
    contentBelow mem k fuel (pg h k) =
      Levels.content Upsert.effect (levels mem noFlight pg H) (leafEntry mem pg) h k := by
  induction h generalizing fuel with
  | zero =>
    obtain ⟨fuel, rfl⟩ : ∃ f, fuel = f + 1 := ⟨fuel - 1, by omega⟩
    obtain ⟨n, hn, -⟩ := hT.leaf_page k
    rw [contentBelow, hn, Levels.content, leafEntry_of_leaf hn]
    rfl
  | succ h ih =>
    obtain ⟨fuel, rfl⟩ : ∃ f, fuel = f + 1 := ⟨fuel - 1, by omega⟩
    have hlow : contentBelow mem k fuel (pg h k) = _ := ih (by omega) (by omega)
    rcases hh.lt_or_eq with hlt | rfl
    · obtain ⟨n, hn, -, hchild⟩ := hT.inner_page hlt k
      have hw : waitingAt mem noFlight (pg (h + 1) k) = n.upserts.toList := by
        rw [waitingAt_inner hn]
        rfl
      have hd := (hT.waiting (h + 1) hh k).distinct
      rw [contentBelow, hn]
      dsimp only
      rw [hchild, hlow, ← hw, applyMessages_eq hd, Levels.content, levels_apply hh]
    · obtain ⟨n, hn, -, hchild⟩ := hT.root_page k
      rw [contentBelow, hT.routed.top, hn]
      dsimp only
      rw [hchild, hlow, Levels.content, hT.levels_top le_rfl]
      rfl

end TreeInv

end Content

variable {K V : Type} [LinearOrder K] [BoundedOrder K] [DecidableEq V] [Add V] [Inhabited K] [Inhabited V]
variable {R : PageRules} {N : NodeSizes} {O : Unspecified K V} {A : Prop} {T : K → ℕ} {C : K → Option V}
  {w : PageWorld (BeNode K V) Header}

omit [BoundedOrder K] [DecidableEq V] [Inhabited K] [Inhabited V] in
/-- The map that a tree holds is its content. -/
theorem Keeps.content_eq [Std.Associative (α := V) (· + ·)] {H : ℕ} {pg : ℕ → K → PageId}
    (hK : Keeps R.ids N A T C w.mem noFlight w.header w.created H pg) (a : A) (key : K) :
    content w key = C key := by
  rw [content, ← hK.inv.routed.top key, hK.inv.contentBelow_eq key le_rfl (hK.inv.height_lt key)]
  exact (hK.held a).content (.inr ‹_›) key

omit [BoundedOrder K] [DecidableEq V] [Inhabited K] [Inhabited V] in
theorem Resting.content_eq {T : ℕ} [Std.Associative (α := V) (· + ·)] (hw : Resting R N A T C w) (a : A) (key : K) :
    content w key = C key := by
  obtain ⟨H, pg, hK⟩ := hw.tree
  exact hK.content_eq a key

/-- On an ideal store, with asserts compiled out, every call of a session of fewer than 2⁶⁴ calls returns,
and the tree then holds what the plain map holds after the same calls. -/
theorem session_content [Std.Associative (α := V) (· + ·)] (ids : ℕ → PageId)
    (ids_inj : ∀ i j, ids i = ids j → i = j) (hN : N.Roomy) (O : Unspecified K V) (ms : List (Mutation K V))
    (hms : ms.length < 2 ^ 64) :
    Runs (handler ⟨false, none, ids, ids_inj⟩) (session N O ms) (empty {}) fun _ w =>
      ∀ key, content w key = MapOp.applyAll (fun _ => none) (ms.map Mutation.toOp) key :=
  (session_spec (A := True) rfl hN ms (fun _ => hms) (PageRules.off rfl)).mono fun _ _ h key =>
    h.1.content_eq trivial key

/-- Fourteen insertions split leaves and inner nodes and flush messages; after them an update, an erasure and an
insertion wait in buffers or are flushed further down. -/
def deepCalls : List (Mutation (Fin 32) ℕ) :=
  (List.range 14).map (fun i => .insert (Fin.ofNat 32 i) i) ++ [.update 1 7, .erase 3, .insert 30 5, .update 12 1]

/-- A tree of small nodes with eleven pages. -/
theorem session_content_deep :
    Runs (handler ⟨false, none, id, fun _ _ h => h⟩) (session .smallest (.basic (Fin 32) ℕ) deepCalls) (empty {})
      fun _ w => content w 1 = some 8 ∧ content w 3 = none ∧ content w 12 = some 13 ∧ w.created = 11 := by
  have hpages : execHolds (handler ⟨false, none, id, fun _ _ h => h⟩) 2000
      (session .smallest (.basic (Fin 32) ℕ) deepCalls) (empty {}) (fun _ w => w.created == 11) = true := by
    decide +kernel
  have hcontent := session_content id (fun _ _ h => h) NodeSizes.smallest_roomy (.basic (Fin 32) ℕ) deepCalls
    (by decide)
  refine (hcontent.det (runs_of_exec hpages)).mono fun _ w h => ⟨?_, ?_, ?_, by simpa using h.2⟩
  · rw [h.1]
    rfl
  · rw [h.1]
    rfl
  · rw [h.1]
    rfl

end BEpsilon.BeTree
