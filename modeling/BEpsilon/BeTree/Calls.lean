import BEpsilon.Lib.PlainMap
import BEpsilon.BeTree.RootLeaf

/-!
# BEpsilon.BeTree.Calls — the calls that change the Bε-tree

`upsert` brings a message into the tree, after a second attempt where the first one had the root page
latched shared only.  A call draws a time stamp and brings in its message; `Resting` is what holds
between two calls.
-/

namespace BEpsilon.BeTree

open Slots Keyed PageWorld

/-- The calls that change the tree. -/
inductive Mutation (K V : Type) : Type
  | insert (key : K) (value : V)
  | update (key : K) (value : V)
  | erase (key : K)

namespace Mutation

variable {K V : Type}

/-- The call, on a plain map. -/
def toOp : Mutation K V → MapOp K V
  | insert key value => .insert key value
  | update key value => .update key value
  | erase key => .erase key

/-- The message of a call. -/
def message [Inhabited V] (timeStamp : ℕ) : Mutation K V → Upsert K V
  | insert key value => ⟨key, value, timeStamp, .INSERT⟩
  | update key value => ⟨key, value, timeStamp, .UPDATE⟩
  | erase key => ⟨key, default, timeStamp, .DELETE⟩

variable [Inhabited V] (m : Mutation K V) (timeStamp : ℕ)

theorem message_valid : (m.message timeStamp).type ≠ .INVALID := by
  cases m <;> simp [message]

@[simp] theorem message_timeStamp : (m.message timeStamp).timeStamp = timeStamp := by
  cases m <;> rfl

/-- The message does to its key what the call does to the map. -/
theorem apply_toOp [LinearOrder K] [Add V] (C : K → Option V) :
    m.toOp.apply C = Function.update C (m.message timeStamp).key
      ((m.message timeStamp).effect (C (m.message timeStamp).key)) := by
  cases m <;> rfl

end Mutation

variable {K V : Type} [LinearOrder K] [BoundedOrder K] [DecidableEq V] [Add V] [Inhabited K] [Inhabited V]

/-- One call. -/
def call (N : NodeSizes) (O : Unspecified K V) : Mutation K V → BeProg K V Unit
  | .insert key value => insert N O key value
  | .update key value => update N O key value
  | .erase key => erase N O key

/-- The calls of one thread. -/
def calls (N : NodeSizes) (O : Unspecified K V) : List (Mutation K V) → BeProg K V Unit
  | [] => return ()
  | m :: ms => do
    call N O m
    calls N O ms

/-- The calls of one thread on a fresh tree. -/
def session (N : NodeSizes) (O : Unspecified K V) (ms : List (Mutation K V)) : BeProg K V Unit := do
  create O
  calls N O ms

theorem call_eq (N : NodeSizes) (O : Unspecified K V) (m : Mutation K V) :
    call N O m = drawTimeStamp.bind fun timeStamp => upsert N O (m.message timeStamp) := by
  cases m <;> rfl

variable {R : PageRules} {N : NodeSizes} {O : Unspecified K V} {A : Prop} {T T' : K → ℕ} {C : K → Option V}
  {header : Header} {kept : Prop} {u : Upsert K V}

section Upsert

variable (hlim : R.limit = none) (hN : N.Roomy)
include hlim hN

/-- A message comes into a tree that is one leaf. -/
theorem upsert_leaf_spec {w : PageWorld (BeNode K V) Header} {pg : ℕ → K → PageId}
    (hK : Keeps R.ids N A T C w.mem noFlight w.header w.created 0 pg) (hpins : w.pins = [])
    (hT : A → T ≤ T') (hu : u.type ≠ .INVALID) :
    Runs (handler R) (upsert N O u) w fun _ w' =>
      AtRestLow R N A T' (Function.update C u.key (u.effect (C u.key))) w.header w.kept w' := by
  obtain ⟨mem, created, header, pins, recent, kept⟩ := w
  dsimp only at hK hpins ⊢
  subst hpins
  obtain ⟨t, ht, -⟩ := hK.inv.root_leaf u.key
  have hflag : header.rootLeaf = true := hK.inv.flag.mpr rfl
  simp only [upsert, Prog.bind_def]
  refine runs_getHeader (runs_pinPage (by simp) (by simp [hlim]) (by rw [ht]; rfl)
    (hK.inv.known _ (by rw [ht]; simp)) ?_)
  refine runs_read ht (.inl ⟨_, List.mem_cons_self⟩) (runs_getHeader (runs_check (fun _ => hflag) ?_))
  exact handleRootLeafUpsert_spec hlim hN hK hT hu

/-- A message comes into the tree. -/
theorem upsert_spec {w : PageWorld (BeNode K V) Header} (hw : AtRest R N A T C w.header w.kept w)
    (hT : A → Newest T u T') (hu : u.type ≠ .INVALID)
    (hcalm : R.asserts = true → Calm N (fun i => O.memory (R.ids i)) w.mem w.created w.header.rootID u) :
    Runs (handler R) (upsert N O u) w fun _ w' =>
      AtRest R N A T' (Function.update C u.key (u.effect (C u.key))) w.header
        (w.kept ∧ ¬ Lossy N w.mem w.header.rootID u) w' := by
  obtain ⟨mem, created, header, pins, recent, kept⟩ := w
  obtain ⟨⟨H, pg, hK⟩, hpins, -, -, -⟩ := hw
  dsimp only at hK hpins ⊢
  subst hpins
  have htop : pg H u.key = header.rootID := hK.inv.routed.top u.key
  have hmem : mem header.rootID ≠ none := htop ▸ hK.inv.mem_page le_rfl u.key
  cases H with
  | zero =>
    exact (upsert_leaf_spec hlim hN hK rfl (fun a => (hT a).mono) hu).mono fun _ w' h =>
      { h.toAtRest with kept := fun hk => h.kept hk.1 }
  | succ H =>
    have hflag : ¬ header.rootLeaf = true := fun h => absurd (hK.inv.flag.mp h) (Nat.succ_ne_zero H)
    obtain ⟨root, hr, -⟩ := hK.inv.root_page u.key
    simp only [upsert, Prog.bind_def]
    refine runs_getHeader (runs_pinPage (by simp) (by simp [hlim])
      (by rw [Option.isSome_iff_ne_none.mpr hmem]; rfl) (hK.inv.known _ hmem) ?_)
    refine runs_read hr (.inl ⟨_, List.mem_cons_self⟩) (runs_getHeader (runs_check (fun _ => by simp [hflag]) ?_))
    -- the first attempt, with the root page latched shared
    refine runs_bind ((handleRootRootUpsert_optimistic hlim hN hcalm hK hT hu).mono fun b w' h => ?_)
    rcases h with ⟨rfl, recent', rfl⟩ | ⟨rfl, h⟩
    · -- the second attempt, with the root page latched exclusively
      simp only [Bool.not_false, if_true]
      refine runs_getHeader (runs_pinPage (by simp) (by simp [hlim])
        (by rw [Option.isSome_iff_ne_none.mpr hmem]; rfl) (hK.inv.known _ hmem) (runs_bind ?_))
      exact (handleRootRootUpsert_exclusive hlim hN hcalm hK hT hu).mono fun b w' h => runs_ret h.2
    · exact runs_ret h

/-! ### Between two calls -/

omit [BoundedOrder K] [DecidableEq V] [Inhabited K] [Inhabited V] hlim hN in
/-- The next time stamp does not concern the tree. -/
theorem Keeps.set_header {mem : PageId → Option (BeNode K V)} {F : PageId → List (Upsert K V)}
    {header' : Header} {created H : ℕ} {pg : ℕ → K → PageId}
    (hK : Keeps R.ids N A T C mem F header created H pg) (hid : header'.rootID = header.rootID)
    (hleaf : header'.rootLeaf = header.rootLeaf) : Keeps R.ids N A T C mem F header' created H pg where
  inv := { hK.inv with routed := hid ▸ hK.inv.routed, flag := hleaf ▸ hK.inv.flag }
  held := hK.held

/-- The world after `T` calls: the tree holds `C`, no page is pinned, and the next stamp is known. -/
structure Resting (R : PageRules) (N : NodeSizes) (A : Prop) (T : ℕ) (C : K → Option V)
    (w : PageWorld (BeNode K V) Header) : Prop where
  tree : ∃ H pg, Keeps R.ids N A (fun _ => T) C w.mem noFlight w.header w.created H pg
  pins : w.pins = []
  timeStamp : w.header.currentTimeStamp = T % UInt64.size

omit hlim hN in
theorem nextTimeStamp_eq {T : ℕ} (hT : T + 1 < UInt64.size) : nextTimeStamp (T % UInt64.size) = T + 1 := by
  rw [nextTimeStamp, Nat.mod_add_mod, Nat.mod_eq_of_lt hT]

/-- The message that the call `m` brings into the tree. -/
def nextMessage (w : PageWorld (BeNode K V) Header) (m : Mutation K V) : Upsert K V :=
  m.message (nextTimeStamp w.header.currentTimeStamp)

theorem call_spec {T : ℕ} {w : PageWorld (BeNode K V) Header} (hw : Resting R N A T C w)
    (hT : A → T + 1 < UInt64.size) (m : Mutation K V)
    (hcalm : R.asserts = true →
      Calm N (fun i => O.memory (R.ids i)) w.mem w.created w.header.rootID (nextMessage w m)) :
    Runs (handler R) (call N O m) w fun _ w' => Resting R N A (T + 1) (m.toOp.apply C) w' ∧
      w'.header.rootID = w.header.rootID ∧
      (w.kept → ¬ Lossy N w.mem w.header.rootID (nextMessage w m) → w'.kept) := by
  obtain ⟨mem, created, header, pins, recent, kept⟩ := w
  obtain ⟨⟨H, pg, hK⟩, hpins, hstamp⟩ := hw
  dsimp only at hK hpins hstamp ⊢
  rw [call_eq]
  simp only [drawTimeStamp, Prog.bind_def, Prog.pure_def, Prog.bind_assoc, Prog.ret_bind]
  refine runs_modifyHeader ?_
  set w : PageWorld (BeNode K V) Header :=
    ⟨mem, created, { header with currentTimeStamp := nextTimeStamp header.currentTimeStamp }, pins, recent, kept⟩
  have hrest : AtRest R N A (fun _ => T) C w.header w.kept w :=
    ⟨⟨H, pg, hK.set_header rfl rfl⟩, hpins, rfl, rfl, id, id⟩
  have hnew : A → Newest (fun _ => T) (m.message (nextTimeStamp header.currentTimeStamp)) fun _ => T + 1 := by
    intro a
    have hnext := nextTimeStamp_eq (hT a)
    exact .const (by rw [Mutation.message_timeStamp, hstamp, hnext]; omega)
      (by rw [Mutation.message_timeStamp, hstamp, hnext])
  refine (upsert_spec hlim hN hrest hnew (m.message_valid _) hcalm).mono fun _ w' h => ?_
  refine ⟨⟨?_, h.pins, ?_⟩, h.rootID, fun hk hl => h.kept ⟨hk, hl⟩⟩
  · rw [m.apply_toOp (nextTimeStamp header.currentTimeStamp)]
    exact h.tree
  · rw [h.timeStamp]
    show nextTimeStamp header.currentTimeStamp = _
    rw [hstamp, nextTimeStamp, Nat.mod_add_mod]

/-- Fewer than 2⁶⁴ calls draw different time stamps. -/
theorem calls_spec {T : ℕ} {w : PageWorld (BeNode K V) Header} (hw : Resting R N A T C w) (ms : List (Mutation K V))
    (hT : A → T + ms.length < UInt64.size)
    (hcalm : R.asserts = true → ∀ ms₁ m ms₂ w', ms = ms₁ ++ m :: ms₂ → Returns (handler R) (calls N O ms₁) w () w' →
      Calm N (fun i => O.memory (R.ids i)) w'.mem w'.created w'.header.rootID (nextMessage w' m)) :
    Runs (handler R) (calls N O ms) w fun _ w' =>
      Resting R N A (T + ms.length) (MapOp.applyAll C (ms.map Mutation.toOp)) w' ∧
        w'.header.rootID = w.header.rootID := by
  induction ms generalizing T C w with
  | nil => exact runs_ret ⟨hw, rfl⟩
  | cons m ms ih =>
    simp only [List.length_cons] at hT ⊢
    have hfirst := call_spec hlim hN hw (fun a => by have := hT a; omega) m
      fun hon => hcalm hon [] m ms w rfl (returns_ret _ _ _)
    refine runs_bind (hfirst.returning.mono fun _ w₁ h₁ => ?_)
    obtain ⟨⟨h₁, hroot, -⟩, hr⟩ := h₁
    refine (ih h₁ (fun a => by have := hT a; omega) fun hon ms₁ m' ms₂ w' e hr' => ?_).mono fun _ w₂ h₂ =>
      ⟨?_, h₂.2.trans hroot⟩
    · exact hcalm hon (m :: ms₁) m' ms₂ w' (by rw [e]; rfl) (hr.bind hr')
    · rw [show T + (ms.length + 1) = T + 1 + ms.length by omega]
      exact h₂.1

end Upsert

section Create

omit [BoundedOrder K] [DecidableEq V]

omit [Inhabited V] in
/-- A tree of one empty leaf. -/
theorem keeps_fresh {ids : ℕ → PageId} {mem : PageId → Option (BeNode K V)} {L : Leftover K V}
    (hm : mem = Function.update (fun _ => none) (ids 0) (some (.leaf (.fresh L)))) :
    Keeps ids N A (fun _ => 0) (fun _ => none) mem noFlight { rootID := ids 0 } 1 0 fun _ _ => ids 0 := by
  have hroot : mem (ids 0) = some (.leaf (.fresh L)) := by rw [hm, Function.update_self]
  have hother : ∀ id, id ≠ ids 0 → mem id = none := fun id hid => by rw [hm, Function.update_of_ne hid]
  have hwait : waitingAt mem noFlight (ids 0) = [] := by
    rw [waitingAt, hroot]
    rfl
  have hlevels : ∀ h k, levels mem noFlight (fun _ _ => ids 0) 0 h k = none := fun h k => by
    unfold levels
    split
    · rw [hwait]
      rfl
    · rfl
  refine ⟨⟨⟨fun _ => rfl, fun k => ⟨_, views_leaf hroot, fun _ _ => rfl⟩, fun h hh => by omega,
    fun h h' k k' hh hh' _ => by omega, fun h hh => by omega⟩, fun h hh k d hd => ?_, by simp,
    fun h hh k => ?_, fun id hid => absurd rfl hid, fun id hid => ⟨0, by omega, ?_⟩,
    fun i hi => ⟨0, le_rfl, default, ?_⟩⟩, fun _ => ⟨⟨fun h k m hm => ?_, fun k h' h m' m _ hm' => ?_⟩,
    fun _ k => ?_⟩⟩
  · obtain rfl := Option.some.inj (hroot.symm.trans hd)
    exact ⟨Nat.le_zero.mp hh, fun i j hij hj => absurd hj (Nat.not_lt_zero _), Nat.zero_le _⟩
  · rw [hwait]
    exact Waiting.nil _ _ _
  · by_contra e
    exact hid (hother id fun e' => e e'.symm)
  · rw [show i = 0 by omega]
  · simp [hlevels] at hm
  · simp [hlevels] at hm'
  · rw [Levels.content, leafEntry_of_leaf hroot]
    exact (lookup_eq_none_iff fun i j hij hj => absurd hj (Nat.not_lt_zero _)).mpr (by
      rintro ⟨i, hi, -⟩
      exact absurd hi (Nat.not_lt_zero _))

omit [Inhabited V] in
/-- The constructor leaves an empty tree. -/
theorem create_spec (hlim : R.limit = none) :
    Runs (handler R) (create O) (empty {}) fun _ w =>
      Resting R N A 0 (fun _ => none) w ∧ w.header.rootID = R.ids 0 ∧ w.kept := by
  simp only [create, empty, Prog.bind_def]
  refine runs_createPage (runs_modifyHeader ?_)
  refine runs_pinPage (by simp) (by simp [hlim]) rfl ⟨0, by omega, rfl⟩ ?_
  refine runs_write ⟨_, List.mem_cons_self⟩ (runs_unpin_last (by simp) (.inl rfl) ?_)
  exact ⟨⟨⟨0, _, keeps_fresh rfl⟩, rfl, rfl⟩, rfl, trivial⟩

end Create

theorem session_spec (hlim : R.limit = none) (hN : N.Roomy) (ms : List (Mutation K V))
    (hT : A → ms.length < UInt64.size)
    (hcalm : R.asserts = true → ∀ ms₁ m ms₂ w, ms = ms₁ ++ m :: ms₂ →
      Returns (handler R) (session N O ms₁) (empty {}) () w →
      Calm N (fun i => O.memory (R.ids i)) w.mem w.created w.header.rootID (nextMessage w m)) :
    Runs (handler R) (session N O ms) (empty {}) fun _ w =>
      Resting R N A ms.length (MapOp.applyAll (fun _ => none) (ms.map Mutation.toOp)) w ∧
        w.header.rootID = R.ids 0 := by
  refine runs_bind ((create_spec (N := N) (A := A) hlim).returning.mono fun _ w hw => ?_)
  obtain ⟨⟨hw, hroot, -⟩, hr⟩ := hw
  refine (calls_spec hlim hN hw ms (fun a => by rw [Nat.zero_add]; exact hT a) fun hon ms₁ m ms₂ w' e hr' =>
    hcalm hon ms₁ m ms₂ w' e (hr.bind hr')).mono fun _ w' h => ⟨?_, h.2.trans hroot⟩
  have h' := h.1
  rwa [Nat.zero_add] at h'

/-! ### Calls that only draw time stamps -/

section Empty

omit [LinearOrder K] [BoundedOrder K] [DecidableEq V] [Add V] in
/-- A tree of one empty leaf after `T` calls. -/
def emptyTree (O : Unspecified K V) (ids : ℕ → PageId) (T : ℕ) : PageWorld (BeNode K V) Header :=
  ⟨Function.update (fun _ => none) (ids 0) (some (.leaf (.fresh (O.memory (ids 0))))), 1,
    { rootID := ids 0, currentTimeStamp := T % UInt64.size }, [], [ids 0], True⟩

variable (hlim : R.limit = none)
include hlim

omit [LinearOrder K] [BoundedOrder K] [DecidableEq V] [Add V] [Inhabited K] [Inhabited V] in
theorem create_empty :
    Runs (handler R) (create O) (empty {}) fun _ w => w = emptyTree O R.ids 0 := by
  simp only [create, empty, Prog.bind_def]
  refine runs_createPage (runs_modifyHeader ?_)
  refine runs_pinPage (by simp) (by simp [hlim]) rfl ⟨0, by omega, rfl⟩ ?_
  exact runs_write ⟨_, List.mem_cons_self⟩ (runs_unpin_last (by simp) (.inl rfl) rfl)

/-- The call `erase` on an empty tree. -/
theorem erase_empty {T : ℕ} (key : K) :
    Runs (handler R) (call N O (.erase key)) (emptyTree O R.ids T) fun _ w => w = emptyTree O R.ids (T + 1) := by
  have hroot : (emptyTree O R.ids T).mem (R.ids 0) = some (.leaf (.fresh (O.memory (R.ids 0)))) := by
    simp [emptyTree]
  simp only [call, erase, drawTimeStamp, upsert, Prog.bind_def, Prog.pure_def, Prog.bind_assoc, Prog.ret_bind]
  refine runs_modifyHeader (runs_getHeader (runs_pinPage (by simp) (by simp [hlim]) (by simp)
    ⟨0, by omega, rfl⟩ ?_))
  refine runs_read hroot (.inl ⟨_, List.mem_cons_self⟩) (runs_getHeader (runs_check (by simp) ?_))
  simp only [handleRootLeafUpsert, Prog.bind_def]
  refine runs_getHeader (runs_check (by simp) (runs_asLeaf hroot (.inl ⟨_, List.mem_cons_self⟩) ?_))
  rw [if_neg fun h => absurd h.1 (Nat.not_lt_zero _)]
  refine runs_unpin_last (Option.isSome_of_eq_some hroot) (.inr rfl) ?_
  simp only [emptyTree, nextTimeStamp, Nat.mod_add_mod]

/-- Erasing from an empty tree makes the clock run. -/
theorem session_erases (key : K) {n : ℕ} {ms : List (Mutation K V)}
    {Q : Unit → PageWorld (BeNode K V) Header → Prop}
    (h : Runs (handler R) (calls N O ms) (emptyTree O R.ids n) Q) :
    Runs (handler R) (session N O (List.replicate n (.erase key) ++ ms)) (empty {}) Q := by
  have hrun : ∀ i T, T + i = n →
      Runs (handler R) (calls N O (List.replicate i (.erase key) ++ ms)) (emptyTree O R.ids T) Q := by
    intro i
    induction i with
    | zero =>
      rintro T rfl
      exact h
    | succ i ih =>
      intro T hT
      refine runs_bind ((erase_empty hlim key).mono ?_)
      rintro _ _ rfl
      exact ih (T + 1) (by omega)
  refine runs_bind ((create_empty hlim).mono ?_)
  rintro _ _ rfl
  exact hrun n 0 (by omega)

end Empty

end BEpsilon.BeTree
