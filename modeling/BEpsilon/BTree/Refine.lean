import BEpsilon.Lib.PlainMap
import BEpsilon.BTree.Search

/-!
# BEpsilon.BTree.Refine — the B-tree refines a map

`calls` is one thread's sequence of calls.  Every call keeps the state `AtRest` and moves the map it
holds as `MapOp.apply` says, so that on the ideal store all calls return, with the answers of the
plain map and with no assert failing.
-/

namespace BEpsilon.BTree

open Slots PageWorld

variable {K V : Type} [LinearOrder K] [DecidableEq V] [Add V] [Inhabited K] [Inhabited V]

/-- One call, with its answer. -/
def call (N : NodeSizes) : MapOp K V → BProg K V (List (Option V))
  | .insert key value => do insert N key value; return []
  | .update key value => do update key value; return []
  | .erase key => do erase key; return []
  | .find key => do return [← find key]

/-- The calls of one thread, with their answers. -/
def calls (N : NodeSizes) : List (MapOp K V) → BProg K V (List (Option V))
  | [] => return []
  | op :: ops => do return (← call N op) ++ (← calls N ops)

/-- The calls of one thread on a fresh tree. -/
def session (N : NodeSizes) (ops : List (MapOp K V)) : BProg K V (List (Option V)) := do
  create
  calls N ops

variable {N : NodeSizes} {R : PageRules} {L : K → Option V} {root : PageId}

section Create

omit [DecidableEq V] [Add V]

/-- A tree of one empty leaf. -/
theorem treeInv_fresh {ids : ℕ → PageId} {mem : PageId → Option (BNode K V)}
    (hm : mem = Function.update (fun _ => none) (ids 0) (some (.fresh true))) :
    TreeInv ids N mem { rootID := ids 0 } 1 0 (fun _ _ => ids 0) fun _ => none := by
  have hroot : mem (ids 0) = some (.leaf ⟨fun _ => default, fun _ => default, 0⟩) := by
    rw [hm, Function.update_self, BNode.fresh, if_pos rfl]
  have hother : ∀ id, id ≠ ids 0 → mem id = none := fun id hid => by rw [hm]; simp [hid]
  refine ⟨⟨fun _ => rfl, fun k => ⟨_, views_leaf hroot, fun _ _ => rfl⟩, fun h hh => by omega,
    fun h h' k k' hh hh' _ => by omega, fun h hh => by omega⟩, fun id d hd => ?_, by simp,
    fun k n hn => ?_, fun id hid => ⟨0, by omega, ?_⟩, fun i hi => ⟨0, le_rfl, default, ?_⟩⟩
  · by_cases e : id = ids 0
    · obtain rfl := Option.some.inj (hroot.symm.trans (e ▸ hd))
      exact ⟨fun i j hij hj => by simp at hj, Nat.zero_le _⟩
    · rw [hother id e] at hd
      exact absurd hd (by simp)
  · obtain rfl := by simpa using hroot.symm.trans hn
    exact (lookup_eq_none_iff fun i j hij hj => by simp at hj).mpr (by simp)
  · by_contra e
    exact hid (hother id fun e' => e e'.symm)
  · rw [show i = 0 by omega]

/-- The constructor leaves an empty tree. -/
theorem create_spec (hlim : ∀ n ∈ R.limit, 3 ≤ n) :
    Runs (handler R) (create (K := K) (V := V)) (empty {}) fun _ w =>
      AtRest R N (R.ids 0) (fun _ => none) w := by
  simp only [create, empty, Prog.bind_def]
  refine runs_createPage (runs_modifyHeader ?_)
  refine runs_pinPage (by simp) (le_limit hlim (by simp)) rfl ⟨0, by omega, rfl⟩ ?_
  refine runs_write ⟨_, List.mem_cons_self⟩ (runs_unpin_last (by simp) (.inl rfl) ?_)
  exact ⟨⟨0, _, treeInv_fresh rfl⟩, rfl, rfl, trivial⟩

end Create

theorem call_spec (hlim : ∀ n ∈ R.limit, 3 ≤ n) {w : PageWorld (BNode K V) Header}
    (hw : AtRest R N root L w) (op : MapOp K V) :
    Runs (handler R) (call N op) w fun out w' =>
      out = op.answer L ∧ AtRest R N root (op.apply L) w' := by
  cases op with
  | insert key value =>
    exact runs_bind ((insert_spec hlim hw key value).mono fun _ w' h => runs_ret ⟨rfl, h⟩)
  | update key value =>
    exact runs_bind ((update_spec hlim hw key value).mono fun _ w' h => runs_ret ⟨rfl, h⟩)
  | erase key =>
    exact runs_bind ((erase_spec hlim hw key).mono fun _ w' h => runs_ret ⟨rfl, h⟩)
  | find key =>
    refine runs_bind ((find_spec hlim hw key).mono fun o w' h => runs_ret ⟨?_, h.2⟩)
    rw [h.1]
    rfl

theorem calls_spec (hlim : ∀ n ∈ R.limit, 3 ≤ n) {w : PageWorld (BNode K V) Header}
    (hw : AtRest R N root L w) (ops : List (MapOp K V)) :
    Runs (handler R) (calls N ops) w fun out w' =>
      out = MapOp.answers L ops ∧ AtRest R N root (MapOp.applyAll L ops) w' := by
  induction ops generalizing L w with
  | nil => exact runs_ret ⟨rfl, hw⟩
  | cons op ops ih =>
    refine runs_bind ((call_spec hlim hw op).mono fun a w₁ h₁ => ?_)
    refine runs_bind ((ih h₁.2).mono fun as w₂ h₂ => runs_ret ⟨?_, h₂.2⟩)
    rw [h₁.1, h₂.1]
    rfl

theorem session_spec (hlim : ∀ n ∈ R.limit, 3 ≤ n) (ops : List (MapOp K V)) :
    Runs (handler R) (session N ops) (empty {}) fun out w' =>
      out = MapOp.answers (fun _ => none) ops ∧
        AtRest R N (R.ids 0) (MapOp.applyAll (fun _ => none) ops) w' :=
  (runs_bind ((create_spec hlim).mono fun _ _ hw => calls_spec hlim hw ops))

/-- On the ideal store every call of a session returns, no assert fails, and every `find` answers as
the plain map does after the calls before it. -/
theorem session_refines_map (R : PageRules) (N : NodeSizes) (ops : List (MapOp K V)) :
    Runs (handler R.ideal) (session N ops) (empty {}) fun out _ =>
      out = MapOp.answers (fun _ => none) ops :=
  (session_spec (by simp [PageRules.ideal]) ops).mono fun _ _ h => h.1

end BEpsilon.BTree
