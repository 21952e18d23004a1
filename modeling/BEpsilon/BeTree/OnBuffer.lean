import BEpsilon.Buffer.Rounds
import BEpsilon.Buffer.StoreFull
import BEpsilon.BeTree.Content

/-!
# BEpsilon.BeTree.OnBuffer — the Bε-tree over the page buffer

A Bε-tree pins as many pages as a flush needs, so that a small page buffer may be found full; but as long as no
call is `Lossy`, what the calls wrote is in the page buffer or on the disk, over evictions and over any number of
times that the tree is saved and opened again.
-/

namespace BEpsilon.BeTree

open Slots Keyed Buffer

variable {K V : Type} [LinearOrder K] [BoundedOrder K] [DecidableEq V] [Add V] [Inhabited K] [Inhabited V]

/-- An ideal store with the ids of a buffer, with asserts compiled out. -/
def idealFor (B : BufRules) : PageRules := ⟨false, none, B.ids, B.ids_inj⟩

/-- A call that changes the tree answers nothing. -/
def callJob (N : NodeSizes) (O : Unspecified K V) (m : Mutation K V) : BeProg K V (List (Option V)) := do
  call N O m
  return []

/-- No call of the jobs is lossy, where the tree is on the ideal store. -/
def Lossless (R : PageRules) (N : NodeSizes) (O : Unspecified K V) :
    List (Job (Mutation K V)) → PageWorld (BeNode K V) Header → Prop
  | [], _ => True
  | .call m :: js, w => ¬ Lossy N w.mem w.header.rootID (nextMessage w m) ∧
      Runs (PageWorld.handler R) (call N O m) w fun _ w₁ => Lossless R N O js w₁
  | .reopen :: js, w => Lossless R N O js { w with recent := [] }

/-- The value of `key` in the pages that a tree over the page buffer sees. -/
def storedContent (v : Store (BeNode K V) Header) (key : K) : Option V :=
  contentBelow (fun id => some (v.page id)) key v.buf.created v.header.rootID

variable {R : PageRules} {N : NodeSizes} {O : Unspecified K V} {C : K → Option V} {w : PageWorld (BeNode K V) Header}

omit [BoundedOrder K] [DecidableEq V] [Inhabited K] [Inhabited V] in
/-- Pages that the tree does not know of do not change its content. -/
theorem TreeInv.contentBelow_extends {ids : ℕ → PageId} {mem mem' : PageId → Option (BeNode K V)} {header : Header}
    {created H h fuel : ℕ} {pg : ℕ → K → PageId} {key : K} (hT : TreeInv ids N mem noFlight header created H pg)
    (hext : ∀ id d, mem id = some d → mem' id = some d) (hh : h ≤ H) :
    contentBelow mem' key fuel (pg h key) = contentBelow mem key fuel (pg h key) := by
  induction h generalizing fuel with
  | zero =>
    cases fuel with
    | zero => rfl
    | succ fuel =>
      obtain ⟨n, hn, -⟩ := hT.leaf_page key
      rw [contentBelow, contentBelow, hn, hext _ _ hn]
  | succ h ih =>
    cases fuel with
    | zero => rfl
    | succ fuel =>
      rcases hh.lt_or_eq with hlt | rfl
      · obtain ⟨n, hn, -, hchild⟩ := hT.inner_page hlt key
        rw [contentBelow, contentBelow, hn, hext _ _ hn]
        dsimp only
        rw [hchild, ih (by omega)]
      · obtain ⟨n, hn, -, hchild⟩ := hT.root_page key
        rw [contentBelow, contentBelow, hT.routed.top, hn, hext _ _ hn]
        dsimp only
        rw [hchild, ih (by omega)]

omit [BoundedOrder K] [DecidableEq V] [Inhabited K] [Inhabited V] in
/-- The page buffer holds the tree of the ideal store. -/
theorem Resting.storedContent_eq [Std.Associative (α := V) (· + ·)] {T : ℕ} (hw : Resting R N True T C w)
    {B : BufRules} {v : Store (BeNode K V) Header} (hM : Mirrors B w v) (key : K) : storedContent v key = C key := by
  have hcontent := hw.content_eq trivial key
  obtain ⟨⟨H, pg, hK⟩, -, -⟩ := hw
  have hext : ∀ id d, w.mem id = some d → some (v.page id) = some d := fun id d hd => by rw [hM.page_eq hd]
  rw [storedContent, hM.created, hM.header, ← hcontent, content, ← hK.inv.routed.top key]
  exact hK.inv.contentBelow_extends hext le_rfl

/-- A life without lossy calls on the ideal store. -/
theorem livesIdeal_calls (hlim : R.limit = none) (hA : R.asserts = false) (hN : N.Roomy) {T : ℕ}
    (hw : Resting R N True T C w) (hkept : w.kept) {jobs : List (Job (Mutation K V))}
    (hT : T + (Job.calls jobs).length < UInt64.size) (hl : Lossless R N O jobs w) :
    LivesIdeal R (callJob N O) jobs w fun _ w' => ∃ T',
      Resting R N True T' (MapOp.applyAll C ((Job.calls jobs).map Mutation.toOp)) w' := by
  induction jobs generalizing T C w with
  | nil => exact ⟨T, hw⟩
  | cons j js ih =>
    cases j with
    | call m =>
      simp only [Job.calls, List.length_cons] at hT
      obtain ⟨hnot, hrest⟩ := hl
      have hcall := (call_spec (O := O) hlim hN hw (fun _ => by omega) m (PageRules.off hA))
      refine runs_bind ((hcall.det hrest).mono ?_)
      rintro ⟨⟩ w₁ ⟨⟨hw₁, -, hkept₁⟩, hl₁⟩
      exact runs_ret ⟨hkept₁ hkept hnot, hw₁.pins, ih hw₁ (hkept₁ hkept hnot) (by omega) hl₁⟩
    | reopen =>
      have hw' : Resting R N True T C { w with recent := [] } := ⟨hw.tree, hw.pins, hw.timeStamp⟩
      exact ih hw' hkept hT hl

/-- On a page buffer of any size a Bε-tree may be saved and opened again after any call: unless the buffer is found
full, the pages that it sees in the end hold what the plain map holds after all calls, as long as none of them is
lossy. -/
theorem rounds_content [Std.Associative (α := V) (· + ·)] (B : BufRules) (hA : B.asserts = false) (hN : N.Roomy)
    (O : Unspecified K V) (blocks : PageId → BeNode K V) (zero : BeNode K V) (jobs : List (Job (Mutation K V)))
    (hjobs : (Job.calls jobs).length < 2 ^ 64) (hl : Lossless (idealFor B) N O jobs (emptyTree O B.ids 0)) :
    Ends (Store.handler B) (· = .buf .bufferFull) (onBuffer (create O)) (.open {} (PageBuffer.new B blocks 0 zero))
      fun _ v => Lives B (· = .buf .bufferFull) (callJob N O) zero jobs v fun _ v' =>
        ∀ key, storedContent v' key = MapOp.applyAll (fun _ => none) ((Job.calls jobs).map Mutation.toOp) key := by
  have hasserts : B.asserts = true → (idealFor B).asserts = true := by
    intro h
    rw [hA] at h
    cases h
  have hB : Serves B (idealFor B) (· = .buf .bufferFull) := ⟨rfl, hasserts, .inr rfl⟩
  have hM : Mirrors B (.empty ({} : Header)) (.open {} (PageBuffer.new B blocks 0 zero)) := mirrors_new (by simp)
  have hempty := create_empty (O := O) (R := idealFor B) rfl
  have hspec := create_spec (O := O) (R := idealFor B) (N := N) (A := True) rfl
  refine (ends_run hB hM ((hempty.det hspec).mono fun _ _ h => ⟨h.2.2.2, h⟩)).imp_left (·.mono ?_)
  rintro _ v ⟨w, hM, hkept, rfl, hw, -, -⟩
  have hlife := livesIdeal_calls rfl rfl hN hw hkept (by rw [Nat.zero_add]; exact hjobs) hl
  refine (hlife.lives hB hM hw.pins).mono ?_
  rintro _ v' ⟨w', hM', T', hw'⟩ key
  exact hw'.storedContent_eq hM' key

/-! ### A test of the condition -/

instance instDecidableFullWith (N : NodeSizes) (t : BeLeafNode K V) (u : Upsert K V) : Decidable (FullWith N t u) :=
  inferInstanceAs (Decidable (_ ∧ _ ∧ _))

/-- Is the call not lossy? -/
def notLossy (N : NodeSizes) (mem : PageId → Option (BeNode K V)) (rootPage : PageId) (u : Upsert K V) : Bool :=
  match mem rootPage with
  | some (.root root) =>
    match mem (root.children (lowerBound root.pivots root.size u.key)) with
    | some (.leaf t) => !(decide (root.size < N.ROOT_N) && decide (FullWith N t u))
    | _ => true
  | _ => true

omit [BoundedOrder K] [Add V] [Inhabited K] [Inhabited V] in
theorem notLossy_sound {mem : PageId → Option (BeNode K V)} {rootPage : PageId} {u : Upsert K V}
    (h : notLossy N mem rootPage u = true) : ¬ Lossy N mem rootPage u := by
  rintro ⟨root, t, hroot, hroom, ht, hfull⟩
  simp [notLossy, hroot, ht, hroom, hfull] at h

/-- `Lossless`, where no call takes more than `fuel` steps. -/
def losslessJobs (R : PageRules) (N : NodeSizes) (O : Unspecified K V) (fuel : ℕ) :
    List (Job (Mutation K V)) → PageWorld (BeNode K V) Header → Bool
  | [], _ => true
  | .call m :: js, w => notLossy N w.mem w.header.rootID (nextMessage w m) &&
      execHolds (PageWorld.handler R) fuel (call N O m) w fun _ w₁ => losslessJobs R N O fuel js w₁
  | .reopen :: js, w => losslessJobs R N O fuel js { w with recent := [] }

theorem losslessJobs_sound {fuel : ℕ} {jobs : List (Job (Mutation K V))}
    (h : losslessJobs R N O fuel jobs w = true) : Lossless R N O jobs w := by
  induction jobs generalizing w with
  | nil => trivial
  | cons j js ih =>
    cases j with
    | call m =>
      rw [losslessJobs, Bool.and_eq_true] at h
      exact ⟨notLossy_sound h.1, (runs_of_exec h.2).mono fun _ _ h => ih h⟩
    | reopen => exact ih h

/-- Insertions that build a tree of three levels, which is saved and opened twice, and changed after that. -/
def savedTwice : List (Job (Mutation (Fin 16) ℕ)) :=
  (List.range 10).map (fun i => .call (.insert (Fin.ofNat 16 i) i)) ++
    [.reopen, .call (.update 1 2), .call (.erase 3), .reopen, .call (.insert 3 9), .call (.insert 12 5)]

/-- A buffer of five slots. -/
theorem rounds_content_savedTwice :
    Ends (Store.handler { BufRules.basic 5 with asserts := false }) (· = .buf .bufferFull)
      (onBuffer (create (.basic _ _)))
      (.open {} (PageBuffer.new { BufRules.basic 5 with asserts := false } (fun _ => .leaf (.fresh default)) 0
        (.leaf (.fresh default))))
      fun _ v => Lives { BufRules.basic 5 with asserts := false } (· = .buf .bufferFull)
        (callJob .smallest (.basic (Fin 16) ℕ)) (.leaf (.fresh default)) savedTwice v
        fun _ v' => storedContent v' 1 = some 3 ∧ storedContent v' 3 = some 9 := by
  have hl : losslessJobs (idealFor { BufRules.basic 5 with asserts := false }) .smallest (.basic (Fin 16) ℕ) 1000
      savedTwice (emptyTree (.basic _ _) (BufRules.basic 5).ids 0) = true := by
    decide +kernel
  have h := rounds_content { BufRules.basic 5 with asserts := false } rfl NodeSizes.smallest_roomy
    (.basic (Fin 16) ℕ) (fun _ => .leaf (.fresh default)) (.leaf (.fresh default)) savedTwice (by decide)
    (losslessJobs_sound hl)
  refine h.imp_left (·.mono fun _ v hv => hv.mono fun _ v' hv' => ⟨?_, ?_⟩)
  · rw [hv']
    rfl
  · rw [hv']
    rfl

end BEpsilon.BeTree
