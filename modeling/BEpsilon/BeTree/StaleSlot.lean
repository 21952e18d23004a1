import BEpsilon.BeTree.Calls

/-!
# BEpsilon.BeTree.StaleSlot — which asserts of the write path can fail

A leaf keeps what was last stored in the slots past its end, and the flush asserts that the slot where it
inserts a key does not hold that key, also when it is the one past the end.  Where the leaves below a node that
is flushed are vacant this assert holds, and every other assert of the write path with it.
-/

namespace BEpsilon.BeTree

open Slots PageWorld

section Aborts

variable {K V α : Type}

/-- An assert ends the run; an access to a node as one of another type is an assert too. -/
def Aborts (R : PageRules) (p : BeProg K V α) (w : PageWorld (BeNode K V) Header) : Prop :=
  Raises (handler R) p w .assertFailed (fun _ => True) ∨ Raises (handler R) p w .badCast fun _ => True

theorem Aborts.not_runs {R : PageRules} {p : BeProg K V α} {w : PageWorld (BeNode K V) Header}
    {Q : α → PageWorld (BeNode K V) Header → Prop} (ha : Aborts R p w) : ¬ Runs (handler R) p w Q := by
  rcases ha with h | h
  · exact h.not_runs
  · exact h.not_runs

variable [LinearOrder K] [BoundedOrder K] [DecidableEq V] [Add V] [Inhabited K] [Inhabited V]

/-- The tree is calm before every call of the session. -/
def CalmSession (R : PageRules) (N : NodeSizes) (O : Unspecified K V) (ms : List (Mutation K V)) : Prop :=
  ∀ ms₁ m ms₂ w, ms = ms₁ ++ m :: ms₂ → Returns (handler R) (session N O ms₁) (empty {}) () w →
    Calm N (fun i => O.memory (R.ids i)) w.mem w.created w.header.rootID (nextMessage w m)

/-- A session with asserts compiled in is not aborted where the tree is calm before every call. -/
theorem session_not_aborts (ids : ℕ → PageId) (ids_inj : ∀ i j, ids i = ids j → i = j) {N : NodeSizes} (hN : N.Roomy)
    (O : Unspecified K V) (ms : List (Mutation K V)) (hcalm : CalmSession ⟨true, none, ids, ids_inj⟩ N O ms) :
    ¬ Aborts ⟨true, none, ids, ids_inj⟩ (session N O ms) (empty {}) := fun ha =>
  ha.not_runs (session_spec (A := False) rfl hN ms False.elim fun _ => hcalm)

end Aborts

/-! ### A test of the condition -/

section Test

variable {n : ℕ} {N : NodeSizes} {L : Leftover (Fin n) ℕ} {mem : PageId → Option (BeNode (Fin n) ℕ)} {created : ℕ}
  {rootPage : PageId} {u : Upsert (Fin n) ℕ}

/-- `Vacant` where every new page has the same memory. -/
def BeLeafNode.vacant (N : NodeSizes) (L : Leftover (Fin n) ℕ) (t : BeLeafNode (Fin n) ℕ) (key : Fin n) : Bool :=
  (decide (t.Found key) || decide (∀ j < N.LEAF_N, t.size ≤ j → t.keys j ≠ key)) &&
    (decide (t.size < 2 ∨ t.index key ≠ t.size) || decide (∀ j < N.LEAF_N, L.keys j ≠ key))

theorem BeLeafNode.vacant_sound {t : BeLeafNode (Fin n) ℕ} {key : Fin n} (h : t.vacant N L key = true) :
    t.Vacant N (fun _ => L) created key := by
  simp only [vacant, Bool.and_eq_true, Bool.or_eq_true, decide_eq_true_eq] at h
  obtain ⟨hslots, hmemory⟩ := h
  refine ⟨hslots.imp_right fun hfree j hj hlt => hfree j hlt hj, fun h₂ hlast i _ => ?_⟩
  rcases hmemory with h | h
  · omega
  · exact h

/-- `Calm` where every new page has the same memory. -/
def calm (N : NodeSizes) (L : Leftover (Fin n) ℕ) (mem : PageId → Option (BeNode (Fin n) ℕ)) (created : ℕ)
    (rootPage : PageId) (u : Upsert (Fin n) ℕ) : Bool :=
  match mem rootPage with
  | some (.root root) =>
    match mem (root.children (lowerBound root.pivots root.size u.key)) with
    | some (.inner node) =>
      !(decide (root.size < N.ROOT_N) && decide (N.INNER_B_N ≤ node.upserts.size) &&
          node.upserts.toList.all fun x => decide (x.key ≠ u.key)) ||
        (List.finRange n).all fun k => (u :: pathMessages mem k created rootPage).all fun x =>
          !(decide (x.key = k) && decide (x.type = .INSERT) && decide (
              root.children (lowerBound root.pivots root.size k) =
                root.children (lowerBound root.pivots root.size u.key))) ||
            (pathLeaf mem k created rootPage).all fun t => t.vacant N L k
    | _ => true
  | _ => true

theorem calm_sound (h : calm N L mem created rootPage u = true) : Calm N (fun _ => L) mem created rootPage u := by
  intro root node hroot hroom hnode hfull hmiss x hx hi hpage t ht
  simp only [calm, hroot, hnode, Bool.or_eq_true, Bool.not_eq_true', Bool.and_eq_false_iff, decide_eq_false_iff_not,
    List.all_eq_true, List.mem_finRange, List.mem_cons, forall_const, Option.all_eq_true] at h
  rcases h with ((h | h) | h) | h
  · exact absurd hroom h
  · exact absurd hfull h
  · simp at h
    obtain ⟨y, hy, e⟩ := h
    exact absurd e (hmiss y hy)
  · have h' := h x.key x (hx.imp_left id)
    simp [hi, hpage, ht] at h'
    exact BeLeafNode.vacant_sound h'

variable [NeZero n] {R : PageRules} {O : Unspecified (Fin n) ℕ}

/-- The tree is calm before every call, of which none takes more than `fuel` steps. -/
def calmCalls (R : PageRules) (N : NodeSizes) (O : Unspecified (Fin n) ℕ) (L : Leftover (Fin n) ℕ) (fuel : ℕ) :
    List (Mutation (Fin n) ℕ) → PageWorld (BeNode (Fin n) ℕ) Header → Bool
  | [], _ => true
  | m :: ms, w => calm N L w.mem w.created w.header.rootID (nextMessage w m) &&
      execHolds (handler R) fuel (call N O m) w fun _ w' => calmCalls R N O L fuel ms w'

theorem calmCalls_sound {fuel : ℕ} {ms : List (Mutation (Fin n) ℕ)} {w : PageWorld (BeNode (Fin n) ℕ) Header}
    (h : calmCalls R N O L fuel ms w = true) {ms₁ : List (Mutation (Fin n) ℕ)} {m : Mutation (Fin n) ℕ}
    {ms₂ : List (Mutation (Fin n) ℕ)} {w' : PageWorld (BeNode (Fin n) ℕ) Header} (hms : ms = ms₁ ++ m :: ms₂)
    (hr : Returns (handler R) (calls N O ms₁) w () w') :
    Calm N (fun _ => L) w'.mem w'.created w'.header.rootID (nextMessage w' m) := by
  induction ms₁ generalizing ms w with
  | nil =>
    subst hms
    obtain ⟨rfl, -⟩ := hr.of_runs (Q := fun _ v => v = w ∧ True) (runs_ret ⟨rfl, trivial⟩)
    rw [List.nil_append, calmCalls, Bool.and_eq_true] at h
    exact calm_sound h.1
  | cons m₁ ms₁ ih =>
    subst hms
    rw [List.cons_append, calmCalls, Bool.and_eq_true] at h
    obtain ⟨a, w₁, hfirst, hrest⟩ := hr.of_bind
    exact ih (hfirst.of_runs (runs_of_exec h.2)) rfl hrest

/-- A session on a tree that was calm before every call. -/
theorem calmSession_of_calls (fuel : ℕ) {ms : List (Mutation (Fin n) ℕ)} (hO : ∀ id, O.memory id = L)
    (h : execHolds (handler R) fuel (create O) (empty {}) (fun _ w => calmCalls R N O L fuel ms w) = true) :
    CalmSession R N O ms := by
  intro ms₁ m ms₂ w hms hr
  obtain ⟨a, w₁, hfirst, hrest⟩ := hr.of_bind
  simp only [hO]
  exact calmCalls_sound (hfirst.of_runs (runs_of_exec h)) hms hrest

end Test

/-! ### A key that comes back -/

section ComeBack

variable (n : ℕ) [NeZero n]

/-- Erases a key of the leaf with the keys 1, 2 and 3 and inserts it again; the other messages push the two down. -/
def comeBack (key : ℕ) : List (Mutation (Fin n) ℕ) :=
  (List.range 12).map (fun i => .insert (Fin.ofNat n (i + 1)) i) ++
    [.erase (Fin.ofNat n key), .insert (Fin.ofNat n 0) 0, .insert (Fin.ofNat n key) 1, .insert (Fin.ofNat n 0) 1]

end ComeBack

/-- The capacities of pages of 112 bytes, with keys and values of 8 bytes and `EPSILON = 0`. -/
def smallPages : NodeSizes := { NodeSizes.smallest with LEAF_N := 5, buffer_le := by decide }

/-- The key 2 comes back to a place inside the leaf. -/
theorem session_not_aborts_comeBack :
    ¬ Aborts ⟨true, none, id, fun _ _ h => h⟩ (session smallPages (.basic _ _) (comeBack 16 2)) (empty {}) :=
  session_not_aborts id (fun _ _ h => h) ⟨by decide, by decide, rfl, le_rfl, by decide⟩ (.basic _ _) (comeBack 16 2)
    (calmSession_of_calls 1000 (L := default) (fun _ => rfl) (by decide +kernel))

/-- The key 3 comes back to the slot past the end of the leaf, where it is still stored. -/
theorem session_aborts_comeBack :
    Aborts ⟨true, none, id, fun _ _ h => h⟩ (session smallPages (.basic _ _) (comeBack (2 ^ 64) 3)) (empty {}) :=
  .inl (raises_of_exec (n := 5000) (by decide +kernel))

end BEpsilon.BeTree
