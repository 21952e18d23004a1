import BEpsilon.Buffer.PageFull
import BEpsilon.BeTree.Find

/-!
# BEpsilon.BeTree.Answers — the answers of `find` in every state

`Arrived` lists the states that the calls of one thread lead to, finds among them, with the plain map after
the same calls.  Below a root node `find` answers the content of a key that is present; for any other key it
answers nothing just where the messages of the path say that the key is absent, and ends with an error where
they are updates above no entry.  While the root page is a leaf it answers nothing, whatever the leaf holds.
-/

namespace BEpsilon.BeTree

open Slots Keyed PageWorld

variable {K V : Type} [LinearOrder K] [BoundedOrder K] [DecidableEq V] [Add V] [Inhabited K] [Inhabited V]

/-! ### The states between calls -/

/-- The states that the calls of one thread on a fresh tree lead to, and the plain map after the same calls. -/
inductive Arrived (R : PageRules) (N : NodeSizes) (O : Unspecified K V) :
    (K → Option V) → PageWorld (BeNode K V) Header → Prop
  | created {w : PageWorld (BeNode K V) Header} (hr : Returns (handler R) (create O) (empty {}) () w) :
      Arrived R N O (fun _ => none) w
  | mutation {C : K → Option V} {w w' : PageWorld (BeNode K V) Header} (m : Mutation K V)
      (hw : Arrived R N O C w) (hr : Returns (handler R) (call N O m) w () w') :
      Arrived R N O (m.toOp.apply C) w'
  | find {C : K → Option V} {w w' : PageWorld (BeNode K V) Header} {o : Option V} (key : K)
      (hw : Arrived R N O C w) (hr : Returns (handler R) (find key) w o w') : Arrived R N O C w'

theorem Arrived.calls {R : PageRules} {N : NodeSizes} {O : Unspecified K V} {C : K → Option V}
    {w w' : PageWorld (BeNode K V) Header} (hw : Arrived R N O C w) {ms : List (Mutation K V)}
    (hr : Returns (handler R) (calls N O ms) w () w') :
    Arrived R N O (MapOp.applyAll C (ms.map Mutation.toOp)) w' := by
  induction ms generalizing C w with
  | nil =>
    obtain rfl := hr.of_runs (Q := fun _ w' => w = w') (runs_ret rfl)
    exact hw
  | cons m ms ih =>
    obtain ⟨_, w₁, hm, hms⟩ := hr.of_bind
    exact ih (hw.mutation m hm) hms

/-- The end of a session is one of these states. -/
theorem Arrived.of_session {R : PageRules} {N : NodeSizes} {O : Unspecified K V} {w : PageWorld (BeNode K V) Header}
    {ms : List (Mutation K V)} (hr : Returns (handler R) (session N O ms) (empty {}) () w) :
    Arrived R N O (MapOp.applyAll (fun _ => none) (ms.map Mutation.toOp)) w := by
  obtain ⟨_, w₁, hcreate, hms⟩ := hr.of_bind
  exact (Arrived.created hcreate).calls hms

/-- Between two calls the pages are a tree, which holds `C` as long as it is one leaf. -/
structure Stands (R : PageRules) (N : NodeSizes) (C : K → Option V) (w : PageWorld (BeNode K V) Header) :
    Prop where
  tree : ∃ H pg, Keeps R.ids N (H = 0) 0 C w.mem noFlight w.header w.created H pg
  pins : w.pins = []

section Created

variable {D Hd α : Type} {R : PageRules} {w w' : PageWorld D Hd}

/-- Pages are only ever added. -/
theorem created_le {p : PageProg D Hd α} {a : α} (hr : Returns (handler R) p w a w') : w.created ≤ w'.created := by
  have hstep : ∀ {β : Type} {c : PageCmd D Hd β} {w : PageWorld D Hd} {b : β} {w₁ : PageWorld D Hd},
      handler R β c w = .ok b w₁ → w.created ≤ w₁.created := by
    intro β c w b w₁ hc
    cases c <;> grind [handler]
  obtain ⟨n, he⟩ := hr
  induction n generalizing p w with
  | zero => simp [exec] at he
  | succ n ih =>
    cases p with
    | ret b =>
      obtain ⟨-, rfl⟩ := by simpa [exec] using he
      exact le_rfl
    | call c k =>
      simp only [exec] at he
      split at he
      next b w₁ hc => exact (hstep hc).trans (ih he)
      next => simp at he
    | loop body s k => exact ih (p := Prog.unroll body s k) he

end Created

variable {R : PageRules} {N : NodeSizes} {O : Unspecified K V} {A : Prop} {T : K → ℕ} {C : K → Option V} {key : K}
  {H : ℕ} {pg : ℕ → K → PageId} {w w' : PageWorld (BeNode K V) Header}

omit [BoundedOrder K] [DecidableEq V] [Add V] [Inhabited K] [Inhabited V] in
/-- A tree of one leaf has one page. -/
theorem TreeInv.created_le_one (hT : TreeInv R.ids N w.mem noFlight w.header w.created 0 pg) : w.created ≤ 1 := by
  by_contra hlt
  obtain ⟨h, hh, k, e⟩ := hT.all 0 (by omega)
  obtain ⟨h', hh', k', e'⟩ := hT.all 1 (by omega)
  obtain rfl := Nat.le_zero.mp hh
  obtain rfl := Nat.le_zero.mp hh'
  rw [hT.routed.top] at e e'
  have := R.ids_inj 0 1 (e.symm.trans e')
  omega

/-- A call draws some time stamp and brings in its message. -/
theorem runs_mutation {m : Mutation K V}
    {Q : Unit → PageWorld (BeNode K V) Header → Prop}
    (h : ∀ timeStamp, Runs (handler R) (upsert N O (m.message timeStamp))
      { w with header := { w.header with currentTimeStamp := timeStamp } } Q) :
    Runs (handler R) (call N O m) w Q := by
  obtain ⟨mem, created, header, pins, recent, kept⟩ := w
  rw [call_eq]
  simp only [drawTimeStamp, Prog.bind_def, Prog.pure_def, Prog.bind_assoc, Prog.ret_bind]
  exact runs_modifyHeader (h _)

/-- A call on a tree of one leaf leaves a tree in which no page has a buffer. -/
theorem call_leaf (hN : N.Roomy) (hK : Keeps R.ids N True 0 C w.mem noFlight w.header w.created 0 pg)
    (hpins : w.pins = []) (m : Mutation K V) :
    Concludes R (call N O m) w fun _ w' => w'.pins = [] ∧
      ∃ H ≤ 1, ∃ pg, Keeps R.ids N True 0 (m.toOp.apply C) w'.mem noFlight w'.header w'.created H pg := by
  refine ((runs_mutation ?_)).concludes
  intro timeStamp
  have hK' : Keeps R.lenient.ids N True 0 C w.mem noFlight { w.header with currentTimeStamp := timeStamp }
      w.created 0 pg := hK.set_header rfl rfl
  refine (upsert_leaf_spec (w := { w with header := { w.header with currentTimeStamp := timeStamp } }) rfl hN hK'
    hpins (show True → 0 ≤ 0 from fun _ => le_rfl) (m.message_valid _)).mono ?_
  intro _ w' h
  obtain ⟨H, hH, pg, hK⟩ := h.low
  rw [m.apply_toOp timeStamp]
  exact ⟨h.pins, H, hH, pg, hK⟩

/-- A call on a tree leaves a tree. -/
theorem call_tree (hN : N.Roomy) (hK : Keeps R.ids N False 0 C w.mem noFlight w.header w.created H pg)
    (hpins : w.pins = []) (m : Mutation K V) :
    Concludes R (call N O m) w fun _ w' => w'.pins = [] ∧
      ∃ H pg, Keeps R.ids N False 0 (m.toOp.apply C) w'.mem noFlight w'.header w'.created H pg := by
  refine ((runs_mutation ?_)).concludes
  intro timeStamp
  have hrest : AtRest R.lenient N False 0 C { w.header with currentTimeStamp := timeStamp } w.kept
      { w with header := { w.header with currentTimeStamp := timeStamp } } :=
    ⟨⟨H, pg, hK.set_header rfl rfl⟩, hpins, rfl, rfl, id, id⟩
  refine (upsert_spec rfl hN hrest (show False → Newest 0 _ 0 from False.elim)
    (m.message_valid _) (PageRules.off rfl)).mono ?_
  intro _ w' h
  rw [m.apply_toOp timeStamp]
  exact ⟨h.pins, h.tree⟩

omit [BoundedOrder K] [DecidableEq V] [Inhabited K] [Inhabited V] in
/-- A tree of several levels, whose content does not matter. -/
theorem Stands.of_levels (hK : Keeps R.ids N False 0 C w.mem noFlight w.header w.created H pg) (hH : H ≠ 0)
    (hpins : w.pins = []) : Stands R N C w :=
  ⟨⟨H, pg, hK.inv, fun h => absurd h hH⟩, hpins⟩

theorem Stands.mutation (hN : N.Roomy) (hw : Stands R N C w) (m : Mutation K V)
    (hr : Returns (handler R) (call N O m) w () w') : Stands R N (m.toOp.apply C) w' := by
  obtain ⟨⟨H, pg, hinv, hheld⟩, hpins⟩ := hw
  cases H with
  | zero =>
    obtain ⟨hpins', H', -, pg', hinv', hheld'⟩ := (call_leaf hN ⟨hinv, fun _ => hheld rfl⟩ hpins m).2 () w' hr
    exact ⟨⟨H', pg', hinv', fun _ => hheld' trivial⟩, hpins'⟩
  | succ H =>
    obtain ⟨hpins', H', pg', hK'⟩ := (call_tree hN ⟨hinv, False.elim⟩ hpins m).2 () w' hr
    refine .of_levels hK' ?_ hpins'
    -- there were two pages at least
    rintro rfl
    have hheight := hinv.height_lt default
    have hone := hK'.inv.created_le_one
    have hle := created_le hr
    omega

omit [BoundedOrder K] [DecidableEq V] [Inhabited K] [Inhabited V] in
/-- `find` leaves the tree as it was. -/
theorem find_sameTree (hw : Stands R N C w) {o : Option V} (hr : Returns (handler R) (find key) w o w') :
    SameTree w w' := by
  have hr' : Returns (handler R.lenient) (find key) w o w' := hr.weaken fun _ _ _ _ _ hc => handler_lenient hc
  obtain ⟨⟨H, pg, hinv, -⟩, hpins⟩ := hw
  cases H with
  | zero => exact (hr'.of_runs (runs_find_leaf (R := R.lenient) _ rfl hinv hpins)).2
  | succ H =>
    by_cases hbase : (gatherBelow (levels w.mem noFlight pg (H + 1)) (leafEntry w.mem pg) key H []).currentValue =
        none → (gatherBelow (levels w.mem noFlight pg (H + 1)) (leafEntry w.mem pg) key H []).accumulatedUpdates = []
    · exact (hr'.of_runs (runs_find (R := R.lenient) rfl hinv hpins rfl hbase)).2
    · obtain ⟨hnone, hne⟩ := Classical.not_imp.mp hbase
      obtain ⟨e, he⟩ := raises_find (R := R.lenient) rfl hinv hpins rfl hnone hne
      exact absurd he hr'.not_raises

omit [BoundedOrder K] [DecidableEq V] [Inhabited K] [Inhabited V] in
theorem Stands.same (hw : Stands R N C w) (h : SameTree w w') : Stands R N C w' := by
  obtain ⟨⟨H, pg, hK⟩, hpins⟩ := hw
  refine ⟨⟨H, pg, ?_⟩, h.pins.trans hpins⟩
  rw [h.mem, h.created, h.header]
  exact hK

theorem Arrived.stands (hN : N.Roomy) (hw : Arrived R N O C w) : Stands R N C w := by
  induction hw with
  | created hr =>
    have hspec := (create_empty (O := O) (R := R.lenient) rfl).concludes
    obtain rfl := hspec.2 _ _ hr
    have hK : Keeps R.ids N True 0 (fun _ => none) (emptyTree O R.ids 0).mem noFlight
        (emptyTree O R.ids 0).header 1 0 _ := (keeps_fresh rfl).set_header rfl rfl
    exact ⟨⟨0, _, hK.inv, fun _ => hK.held trivial⟩, rfl⟩
  | mutation m _ hr ih => exact ih.mutation hN m hr
  | find key _ hr ih => exact ih.same (find_sameTree ih hr)

/-! ### What the path says -/

section Path

/-- The entry for `key` of the leaf on its path below `page`. -/
def pathEntry (mem : PageId → Option (BeNode K V)) (key : K) : ℕ → PageId → Option V
  | 0, _ => none
  | fuel + 1, page =>
    match mem page with
    | some (.leaf n) => lookup n.keys n.values n.size key
    | some (.inner n) => pathEntry mem key fuel (n.children (lowerBound n.pivots n.size key))
    | some (.root n) => pathEntry mem key fuel (n.children (lowerBound n.pivots n.size key))
    | none => none

namespace TreeInv

variable {ids : ℕ → PageId} {mem : PageId → Option (BeNode K V)} {header : Header} {created fuel h : ℕ}

omit [BoundedOrder K] [DecidableEq V] [Add V] [Inhabited K] [Inhabited V]

theorem pathEntry_eq (hT : TreeInv ids N mem noFlight header created H pg) (hh : h ≤ H) (hfuel : h < fuel) :
    pathEntry mem key fuel (pg h key) = leafEntry mem pg key := by
  induction h generalizing fuel with
  | zero =>
    obtain ⟨fuel, rfl⟩ : ∃ f, fuel = f + 1 := ⟨fuel - 1, by omega⟩
    obtain ⟨n, hn, -⟩ := hT.leaf_page key
    rw [pathEntry, hn, leafEntry_of_leaf hn]
    rfl
  | succ h ih =>
    obtain ⟨fuel, rfl⟩ : ∃ f, fuel = f + 1 := ⟨fuel - 1, by omega⟩
    rcases hh.lt_or_eq with hlt | rfl
    · obtain ⟨n, hn, -, hchild⟩ := hT.inner_page hlt key
      rw [pathEntry, hn]
      dsimp only
      rw [hchild]
      exact ih (by omega) (by omega)
    · obtain ⟨n, hn, -, hchild⟩ := hT.root_page key
      rw [pathEntry, hT.routed.top, hn]
      dsimp only
      rw [hchild]
      exact ih (by omega) (by omega)

theorem pathMessages_eq (hT : TreeInv ids N mem noFlight header created H pg) (hh : h ≤ H) (hfuel : h ≤ fuel) :
    pathMessages mem key fuel (pg h key) = messagesBelow (levels mem noFlight pg H) key h := by
  induction h generalizing fuel with
  | zero => exact hT.pathMessages_zero
  | succ h ih =>
    obtain ⟨fuel, rfl⟩ : ∃ f, fuel = f + 1 := ⟨fuel - 1, by omega⟩
    rw [hT.pathMessages_succ hh, messagesBelow, ih (by omega) (by omega)]

/-- What the descent from the page below the root page starts from. -/
theorem saysAbsent_iff (hT : TreeInv ids N mem noFlight header created (H + 1) pg) :
    SaysAbsent (pathMessages mem key created header.rootID) (pathEntry mem key created header.rootID) ↔
      SaysAbsent (messagesBelow (levels mem noFlight pg (H + 1)) key H) (leafEntry mem pg key) := by
  have hlt := hT.height_lt key
  rw [← hT.routed.top key, hT.pathEntry_eq le_rfl hlt, hT.pathMessages_eq le_rfl hlt.le, messagesBelow,
    hT.levels_top le_rfl]
  rfl

/-- The content of a key, from the page below the root page on. -/
theorem content_eq_levels [Add V] {w : PageWorld (BeNode K V) Header}
    (hT : TreeInv ids N w.mem noFlight w.header w.created (H + 1) pg) :
    content w key = Levels.content Upsert.effect (levels w.mem noFlight pg (H + 1)) (leafEntry w.mem pg) H key := by
  rw [content, ← hT.routed.top key, hT.contentBelow_eq key le_rfl (hT.height_lt key), Levels.content,
    hT.levels_top le_rfl]
  rfl

end TreeInv

end Path

omit [BoundedOrder K] [DecidableEq V] [Inhabited V] in
theorem Stands.root_node (hw : Stands R N C w) (hroot : ∃ n, w.mem w.header.rootID = some (.root n)) :
    ∃ H pg, TreeInv R.ids N w.mem noFlight w.header w.created (H + 1) pg := by
  obtain ⟨⟨H, pg, hinv, -⟩, -⟩ := hw
  obtain ⟨root, hroot⟩ := hroot
  cases H with
  | zero =>
    obtain ⟨t, ht, -⟩ := hinv.root_leaf default
    rw [ht] at hroot
    cases hroot
  | succ H => exact ⟨H, pg, hinv⟩

omit [BoundedOrder K] [DecidableEq V] [Inhabited V] in
/-- The header knows what the root page is. -/
theorem Stands.root_of_flag (hw : Stands R N C w) (hflag : w.header.rootLeaf = false) :
    ∃ n, w.mem w.header.rootID = some (.root n) := by
  obtain ⟨⟨H, pg, hinv, -⟩, -⟩ := hw
  cases H with
  | zero => exact absurd (hinv.flag.mpr rfl) (by simp [hflag])
  | succ H =>
    obtain ⟨n, hn, -⟩ := hinv.root_page default
    exact ⟨n, hn⟩

omit [BoundedOrder K] [DecidableEq V] [Inhabited V] in
theorem Stands.leaf_of_flag (hw : Stands R N C w) (hflag : w.header.rootLeaf = true) :
    ∃ n, w.mem w.header.rootID = some (.leaf n) := by
  obtain ⟨⟨H, pg, hinv, -⟩, -⟩ := hw
  obtain rfl := hinv.flag.mp hflag
  obtain ⟨n, hn, -⟩ := hinv.root_leaf default
  exact ⟨n, hn⟩

/-! ### The results -/

/-- Fourteen insertions build a tree of three levels; one update waits below the root node for a key that is
there and one for a key that is not. -/
def twoUpdates : List (Mutation (Fin 64) ℕ) :=
  (List.range 14).map (fun i => .insert (Fin.ofNat 64 i) i) ++ [.update 1 7, .update 60 5]

/-- What the two updates leave behind. -/
theorem arrived_twoUpdates : ∃ w : PageWorld (BeNode (Fin 64) ℕ) Header,
    Arrived ⟨true, none, id, fun _ _ h => h⟩ .smallest (.basic (Fin 64) ℕ)
      (MapOp.applyAll (fun _ => none) (twoUpdates.map Mutation.toOp)) w ∧
    (∃ n, w.mem w.header.rootID = some (.root n)) ∧ content w 1 = some 8 ∧
    (pathMessages w.mem 1 w.created w.header.rootID).map Upsert.type = [.UPDATE] ∧
    (pathMessages w.mem 60 w.created w.header.rootID).map Upsert.type = [.UPDATE] ∧
    (pathMessages w.mem 61 w.created w.header.rootID).map Upsert.type = [] ∧
    pathEntry w.mem 61 w.created w.header.rootID = none := by
  have hrun : execHolds (handler ⟨true, none, id, fun _ _ h => h⟩) 2000
      (session .smallest (.basic (Fin 64) ℕ) twoUpdates) (empty {}) (fun _ w =>
        !w.header.rootLeaf && content w 1 == some 8 &&
        (pathMessages w.mem 1 w.created w.header.rootID).map Upsert.type == [.UPDATE] &&
        (pathMessages w.mem 60 w.created w.header.rootID).map Upsert.type == [.UPDATE] &&
        (pathMessages w.mem 61 w.created w.header.rootID).map Upsert.type == [] &&
        pathEntry w.mem 61 w.created w.header.rootID == none) = true := by
    decide +kernel
  obtain ⟨n, _, w, he, hf⟩ := runs_of_exec hrun
  simp only [Bool.and_eq_true, beq_iff_eq, Bool.not_eq_true'] at hf
  obtain ⟨⟨⟨⟨⟨hroot, h₁⟩, h₂⟩, h₃⟩, h₄⟩, h₅⟩ := hf
  have hw : Arrived _ _ _ (MapOp.applyAll _ (twoUpdates.map Mutation.toOp)) w := .of_session ⟨n, he⟩
  exact ⟨w, hw, (hw.stands NodeSizes.smallest_roomy).root_of_flag hroot, h₁, h₂, h₃, h₄, h₅⟩

omit [BoundedOrder K] [DecidableEq V] [Inhabited V] in
/-- A tree of one leaf holds the plain map. -/
theorem Stands.leaf (hw : Stands R N C w) (hroot : ∃ n, w.mem w.header.rootID = some (.leaf n)) :
    ∃ pg, Keeps R.ids N True 0 C w.mem noFlight w.header w.created 0 pg := by
  obtain ⟨⟨H, pg, hinv, hheld⟩, -⟩ := hw
  cases H with
  | zero => exact ⟨pg, hinv, fun _ => hheld rfl⟩
  | succ H =>
    obtain ⟨root, hr, -⟩ := hinv.root_page default
    obtain ⟨t, ht⟩ := hroot
    rw [ht] at hr
    cases hr

omit [BoundedOrder K] [DecidableEq V] [Inhabited K] [Inhabited V] in
/-- A call has one answer. -/
theorem answer_unique {o o' : Option V} (h : Runs (handler R) (find key) w fun a _ => a = o)
    (h' : Runs (handler R) (find key) w fun a _ => a = o') : o = o' := by
  obtain ⟨-, a, -, -, e, e'⟩ := h.det h'
  exact e.symm.trans e'

/-- Below a root node `find` answers the content of a key that is present, for any `+`. -/
theorem find_stored (hN : N.Roomy) (hw : Arrived R N O C w) (hroot : ∃ n, w.mem w.header.rootID = some (.root n))
    {v : V} (hv : content w key = some v) :
    Runs (handler R.unlimited) (find key) w fun o _ => o = some v := by
  obtain ⟨H, pg, hinv⟩ := (hw.stands hN).root_node hroot
  have hgather := gatherBelow_content (levels w.mem noFlight pg (H + 1)) (leafEntry w.mem pg) key H []
  rw [← hinv.content_eq_levels, hv] at hgather
  refine (runs_find (R := R.unlimited) rfl hinv (hw.stands hN).pins rfl fun hnone => ?_).mono
    fun o _ h => h.1.trans hgather
  rw [hnone] at hgather
  cases hgather

/-- The update of a key that is there waits above its leaf entry. -/
theorem find_stored_twoUpdates : ∃ C w,
    Arrived ⟨true, none, id, fun _ _ h => h⟩ .smallest (.basic (Fin 64) ℕ) C w ∧
    (pathMessages w.mem 1 w.created w.header.rootID).map Upsert.type = [.UPDATE] ∧
    Runs (handler ⟨true, none, id, fun _ _ h => h⟩) (find 1) w fun o _ => o = some 8 := by
  obtain ⟨w, hw, hroot, hcontent, hmessages, -⟩ := arrived_twoUpdates
  exact ⟨_, w, hw, hmessages, find_stored NodeSizes.smallest_roomy hw hroot hcontent⟩

omit [BoundedOrder K] [DecidableEq V] [Inhabited K] [Inhabited V] in
theorem runs_find_none_iff (hinv : TreeInv R.ids N w.mem noFlight w.header w.created (H + 1) pg)
    (hpins : w.pins = []) :
    (Runs (handler R.unlimited) (find key) w fun o _ => o = none) ↔
      SaysAbsent (pathMessages w.mem key w.created w.header.rootID)
        (pathEntry w.mem key w.created w.header.rootID) := by
  rw [hinv.saysAbsent_iff]
  have hvalid : ∀ g u, levels w.mem noFlight pg (H + 1) g key = some u → u.type ≠ .INVALID := by
    intro g u hu
    unfold levels at hu
    split at hu
    next hg => exact (hinv.waiting g hg key).valid u (seek_mem hu)
    next => cases hu
  have hnothing := gatherBelow_nothing (leafEntry w.mem pg) H [] hvalid
  simp only [implies_true, and_true] at hnothing
  rw [← hnothing]
  constructor
  · intro hr
    by_cases hbase : (gatherBelow (levels w.mem noFlight pg (H + 1)) (leafEntry w.mem pg) key H []).currentValue =
        none → (gatherBelow (levels w.mem noFlight pg (H + 1)) (leafEntry w.mem pg) key H []).accumulatedUpdates = []
    · obtain ⟨-, o, w', -, rfl, ho, -⟩ := hr.det (runs_find (R := R.unlimited) rfl hinv hpins rfl hbase)
      have hnone := Option.map_eq_none_iff.mp ho.symm
      exact ⟨hnone, hbase hnone⟩
    · obtain ⟨hnone, hne⟩ := Classical.not_imp.mp hbase
      obtain ⟨e, he⟩ := raises_find (R := R.unlimited) rfl hinv hpins rfl hnone hne
      exact absurd hr he.not_runs
  · rintro ⟨hnone, hnil⟩
    refine (runs_find (R := R.unlimited) rfl hinv hpins rfl fun _ => hnil).mono ?_
    rintro o _ ⟨rfl, -⟩
    rw [hnone]
    rfl

/-- Below a root node `find` answers that there is no value exactly where the path says so. -/
theorem find_absent_iff (hN : N.Roomy) (hw : Arrived R N O C w)
    (hroot : ∃ n, w.mem w.header.rootID = some (.root n)) (key : K) :
    (Runs (handler R.unlimited) (find key) w fun o _ => o = none) ↔
      SaysAbsent (pathMessages w.mem key w.created w.header.rootID)
        (pathEntry w.mem key w.created w.header.rootID) := by
  obtain ⟨H, pg, hinv⟩ := (hw.stands hN).root_node hroot
  exact runs_find_none_iff hinv (hw.stands hN).pins

/-- A key that no call has touched, and one that has only been updated. -/
theorem find_absent_iff_twoUpdates : ∃ w,
    Arrived ⟨true, none, id, fun _ _ h => h⟩ .smallest (.basic (Fin 64) ℕ)
      (MapOp.applyAll (fun _ => none) (twoUpdates.map Mutation.toOp)) w ∧
    (Runs (handler ⟨true, none, id, fun _ _ h => h⟩) (find 61) w fun o _ => o = none) ∧
    ¬ Runs (handler ⟨true, none, id, fun _ _ h => h⟩) (find 60) w fun o _ => o = none := by
  obtain ⟨w, hw, hroot, -, -, h60, h61, hentry⟩ := arrived_twoUpdates
  refine ⟨w, hw, (find_absent_iff NodeSizes.smallest_roomy hw hroot 61).mpr ?_,
    fun h => absurd ((find_absent_iff NodeSizes.smallest_roomy hw hroot 60).mp h) ?_⟩
  · rw [List.map_eq_nil_iff.mp h61, hentry]
    exact ⟨rfl, rfl⟩
  · obtain ⟨u, hu, htype⟩ := List.map_eq_singleton_iff.mp h60
    rw [hu]
    simp [SaysAbsent, htype]

/-- A key that has only been updated is not in the plain map, and `find` of it ends with an error. -/
theorem find_absent_fails : ¬ ∀ (C : Fin 64 → Option ℕ) (w : PageWorld (BeNode (Fin 64) ℕ) Header),
    Arrived ⟨true, none, id, fun _ _ h => h⟩ .smallest (.basic (Fin 64) ℕ) C w →
    (∃ n, w.mem w.header.rootID = some (.root n)) → ∀ key, C key = none →
    Runs (handler ⟨true, none, id, fun _ _ h => h⟩) (find key) w fun o _ => o = none := by
  intro hclaim
  obtain ⟨w, hw, hroot, -, -, h60, -⟩ := arrived_twoUpdates
  obtain ⟨H, pg, hinv⟩ := (hw.stands NodeSizes.smallest_roomy).root_node hroot
  have habsent := (runs_find_none_iff hinv (hw.stands NodeSizes.smallest_roomy).pins).mp
    (hclaim _ w hw hroot 60 (by decide))
  obtain ⟨u, hu, htype⟩ := List.map_eq_singleton_iff.mp h60
  rw [hu] at habsent
  simp [SaysAbsent, htype] at habsent

/-- While the root page is a leaf `find` answers what the plain map holds just where it holds nothing; and the
insertion of another key that puts a root node above the leaf leaves the answer as it was just there. -/
theorem find_leafRoot_iff (hN : N.Roomy) (hw : Arrived R N O C w)
    (hroot : ∃ n, w.mem w.header.rootID = some (.leaf n)) :
    (∀ key, (Runs (handler R.unlimited) (find key) w fun o _ => o = C key) ↔ C key = none) ∧
    ∀ key' value w', Returns (handler R) (call N O (.insert key' value)) w () w' →
      (∃ n, w'.mem w'.header.rootID = some (.root n)) → ∀ key, key ≠ key' →
      ((∃ o, (Runs (handler R.unlimited) (find key) w fun a _ => a = o) ∧
        Runs (handler R.unlimited) (find key) w' fun a _ => a = o) ↔ C key = none) := by
  obtain ⟨pg, hK⟩ := (hw.stands hN).leaf hroot
  have hpins := (hw.stands hN).pins
  have hbefore : ∀ key, Runs (handler R.unlimited) (find key) w fun o _ => o = none :=
    fun key => (runs_find_leaf (R := R.unlimited) key rfl hK.inv hpins).mono fun _ _ h => h.1
  refine ⟨fun key => ⟨fun h => answer_unique h (hbefore key), fun h => h ▸ hbefore key⟩, ?_⟩
  intro key' value w' hr hroot' key hne
  obtain ⟨hpins', H', hH', pg', hinv', hheld'⟩ := (call_leaf hN hK hpins _).2 () w' hr
  -- the root node stands above leaves
  obtain rfl : H' = 1 := by
    cases H' with
    | succ H' => omega
    | zero =>
      obtain ⟨t, ht, -⟩ := hinv'.root_leaf default
      obtain ⟨root, hr⟩ := hroot'
      rw [ht] at hr
      cases hr
  have hentry : leafEntry w'.mem pg' key = C key := by
    have h := (hheld' trivial).content (.inl le_rfl) key
    rw [Levels.content, hinv'.levels_top le_rfl] at h
    exact h.trans (Function.update_of_ne hne _ _)
  have hafter : Runs (handler R.unlimited) (find key) w' fun o _ => o = C key := by
    refine (runs_find (R := R.unlimited) (H := 0) rfl hinv' hpins' rfl fun _ => rfl).mono ?_
    rintro o _ ⟨rfl, -⟩
    simp [gatherBelow, hentry]
  constructor
  · rintro ⟨o, h, h'⟩
    exact (answer_unique h' hafter).symm.trans (answer_unique h (hbefore key))
  · intro h
    exact ⟨none, hbefore key, h ▸ hafter⟩

/-- A leaf that holds the pair (1, 5). -/
theorem arrived_onePair : ∃ w : PageWorld (BeNode (Fin 64) ℕ) Header,
    Arrived ⟨true, none, id, fun _ _ h => h⟩ .smallest (.basic (Fin 64) ℕ)
      (MapOp.applyAll (fun _ => none) [.insert 1 5]) w ∧
    ∃ n, w.mem w.header.rootID = some (.leaf n) := by
  have hrun : execHolds (handler ⟨true, none, id, fun _ _ h => h⟩) 100
      (session .smallest (.basic (Fin 64) ℕ) [.insert 1 5]) (empty {}) (fun _ w => w.header.rootLeaf) = true := by
    decide
  obtain ⟨n, _, w, he, hroot⟩ := runs_of_exec hrun
  have hw : Arrived _ _ _ (MapOp.applyAll _ ([Mutation.insert 1 5].map Mutation.toOp)) w := .of_session ⟨n, he⟩
  exact ⟨w, hw, (hw.stands NodeSizes.smallest_roomy).leaf_of_flag hroot⟩

/-- The key 2, which the leaf does not hold. -/
theorem find_leafRoot_iff_onePair : ∃ w,
    Arrived ⟨true, none, id, fun _ _ h => h⟩ .smallest (.basic (Fin 64) ℕ)
      (MapOp.applyAll (fun _ => none) [.insert 1 5]) w ∧
    Runs (handler ⟨true, none, id, fun _ _ h => h⟩) (find 2) w fun o _ => o = none := by
  obtain ⟨w, hw, hroot⟩ := arrived_onePair
  exact ⟨w, hw, ((find_leafRoot_iff NodeSizes.smallest_roomy hw hroot).1 2).mpr (by decide)⟩

/-- The key 1, which the leaf holds and `find` does not find. -/
theorem find_leafRoot_fails : ¬ ∀ (C : Fin 64 → Option ℕ) (w : PageWorld (BeNode (Fin 64) ℕ) Header),
    Arrived ⟨true, none, id, fun _ _ h => h⟩ .smallest (.basic (Fin 64) ℕ) C w →
    (∃ n, w.mem w.header.rootID = some (.leaf n)) → ∀ key,
    Runs (handler ⟨true, none, id, fun _ _ h => h⟩) (find key) w fun o _ => o = C key := by
  intro hclaim
  obtain ⟨w, hw, hroot⟩ := arrived_onePair
  obtain ⟨pg, hK⟩ := (hw.stands NodeSizes.smallest_roomy).leaf hroot
  have hnone := (runs_find_leaf 1 rfl hK.inv (hw.stands NodeSizes.smallest_roomy).pins).mono fun _ _ h => h.1
  exact absurd (answer_unique hnone (hclaim _ w hw hroot 1)) (by decide)

end BEpsilon.BeTree
