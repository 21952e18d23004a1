import BEpsilon.BTree.Refine
import BEpsilon.BeTree.Content

/-!
# BEpsilon.Trees.Attempts — the two attempts of an insertion

Below a root that is no leaf both trees descend optimistically first and, when a page on the way has to be
split, a second time with the pages latched exclusively.  The first attempt brings the pair or the message
in or leaves everything as it was; the second one always brings it in, whatever other threads made of the
tree in between.
-/

namespace BEpsilon

open PageWorld

section Untouched

variable {D H : Type}

/-- The page `id` has just been pinned, and no other one is. -/
def PageWorld.pinning (w : PageWorld D H) (id : PageId) : PageWorld D H :=
  { w with pins := [(id, w.mem id)], recent := [] }

end Untouched

namespace BTree

variable {K V : Type} [LinearOrder K] [DecidableEq V] [Inhabited K] [Inhabited V]
variable {R : PageRules} {N : NodeSizes} {L : K → Option V} {root : PageId}
  {w : PageWorld (BNode K V) Header}

end BTree

namespace BeTree

variable {K V : Type} [LinearOrder K] [BoundedOrder K] [DecidableEq V] [Add V] [Inhabited K] [Inhabited V]
variable {R : PageRules} {N : NodeSizes} {O : Unspecified K V} {A : Prop} {T T' : ℕ} {C : K → Option V}
  {u : Upsert K V} {w : PageWorld (BeNode K V) Header}

/-- A tree that holds `C` where `A` is true, between two calls. -/
structure Standing (R : PageRules) (N : NodeSizes) (A : Prop) (T : ℕ) (C : K → Option V)
    (w : PageWorld (BeNode K V) Header) : Prop where
  tree : ∃ H pg, Keeps R.ids N A (fun _ => T) C w.mem noFlight w.header w.created H pg
  pins : w.pins = []

omit [BoundedOrder K] [DecidableEq V] [Inhabited K] [Inhabited V] in
/-- A tree whose root page is a root node. -/
theorem Standing.root_node (hw : Standing R N A T C w) (hroot : w.header.rootLeaf = false) :
    ∃ H pg, Keeps R.ids N A (fun _ => T) C w.mem noFlight w.header w.created (H + 1) pg := by
  obtain ⟨H, pg, hK⟩ := hw.tree
  cases H with
  | zero =>
    have hflag := hK.inv.flag.mpr rfl
    rw [hroot] at hflag
    cases hflag
  | succ H => exact ⟨H, pg, hK⟩

omit [BoundedOrder K] [DecidableEq V] [Inhabited K] [Inhabited V] in
theorem Standing.content_eq [Std.Associative (α := V) (· + ·)] (hw : Standing R N A T C w) (a : A) (key : K) :
    content w key = C key := by
  obtain ⟨H, pg, hK⟩ := hw.tree
  exact hK.content_eq a key

end BeTree

end BEpsilon
