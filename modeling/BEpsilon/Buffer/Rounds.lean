import BEpsilon.Lib.Refine
import BEpsilon.Buffer.TreeStore

/-!
# BEpsilon.Buffer.Rounds — a tree that is saved and opened again

A tree lives on in its directory: `flush` saves the header and the dirty pages, and a tree that is opened on
the directory afterwards starts with an empty page buffer.  `Lives` runs the jobs of its user on the page
buffer, `LivesIdeal` on the ideal store, where opening the tree again changes nothing.  What a life on the
ideal store comes to, the life on the page buffer comes to.
-/

namespace BEpsilon.Buffer

variable {D H ι α : Type}

/-- What the user of a tree does: a call, or `flush` and opening the directory again. -/
inductive Job (ι : Type) : Type
  | call (i : ι)
  | reopen

/-- The calls among the jobs. -/
def Job.calls : List (Job ι) → List ι
  | [] => []
  | .call i :: js => i :: Job.calls js
  | .reopen :: js => Job.calls js

/-- `flush` of a tree, with the header that is in the header file afterwards. -/
def flushTree (B : BufRules) : StoreProg D H H := do
  let header ← Prog.cmd (.inr (.header fun h => h))
  .buf (flush B)
  return header

/-- The constructor of a tree on a directory with a header file; the page buffer starts without pages. -/
def Store.reopen (B : BufRules) (zero : D) (header : H) (v : Store D H) : Store D H :=
  .open header (PageBuffer.new B v.buf.blocks v.buf.created zero)

/-- Every job returns or raises an error that `T` tolerates, and in the end `Q` holds of the answers. -/
def Lives (B : BufRules) (T : StoreErr → Prop) (call : ι → PageProg D H (List α)) (zero : D) :
    List (Job ι) → Store D H → (List α → Store D H → Prop) → Prop
  | [], v, Q => Q [] v
  | .call i :: js, v, Q => Ends (Store.handler B) T (onBuffer (call i)) v fun a v₁ =>
      Lives B T call zero js v₁ fun as v₂ => Q (a ++ as) v₂
  | .reopen :: js, v, Q => Runs (Store.handler B) (flushTree B) v fun header v₁ =>
      Lives B T call zero js (v₁.reopen B zero header) Q

/-- The same on the ideal store; every call leaves no page pinned and releases changed pages dirty. -/
def LivesIdeal (R : PageRules) (call : ι → PageProg D H (List α)) :
    List (Job ι) → PageWorld D H → (List α → PageWorld D H → Prop) → Prop
  | [], w, Q => Q [] w
  | .call i :: js, w, Q => Runs (PageWorld.handler R) (call i) w fun a w₁ => w₁.kept ∧ w₁.pins = [] ∧
      LivesIdeal R call js w₁ fun as w₂ => Q (a ++ as) w₂
  | .reopen :: js, w, Q => LivesIdeal R call js { w with recent := [] } Q

variable {B : BufRules} {R : PageRules} {T : StoreErr → Prop} {call : ι → PageProg D H (List α)} {zero : D}
  {w : PageWorld D H} {v : Store D H} {jobs : List (Job ι)} {Q Q' : List α → PageWorld D H → Prop}

theorem LivesIdeal.mono (h : LivesIdeal R call jobs w Q) (hQ : ∀ out w', Q out w' → Q' out w') :
    LivesIdeal R call jobs w Q' := by
  induction jobs generalizing w Q Q' with
  | nil => exact hQ [] w h
  | cons j js ih =>
    cases j with
    | call i => exact Runs.mono h fun a w₁ h₁ => ⟨h₁.1, h₁.2.1, ih h₁.2.2 fun out w' => hQ (a ++ out) w'⟩
    | reopen => exact ih h hQ

/-- No page is lost again. -/
theorem created_of_handler {β : Type} {c : PageCmd D H β} {b : β} {w₁ : PageWorld D H}
    (hc : PageWorld.handler R β c w = .ok b w₁) : w.created ≤ w₁.created := by
  cases c <;> grind [PageWorld.handler]

/-- What was created by the end bounds what was created before. -/
theorem LivesIdeal.created_le {n : ℕ} (h : LivesIdeal R call jobs w Q)
    (hn : ∀ out w', Q out w' → w'.created ≤ n) : w.created ≤ n := by
  induction jobs generalizing w Q with
  | nil => exact hn [] w h
  | cons j js ih =>
    cases j with
    | call i =>
      obtain ⟨m, a, w₁, hm, -, -, h₁⟩ := h
      have hend := ih h₁ fun out w' => hn (a ++ out) w'
      exact exec_back (G := fun w => w.created ≤ n) (fun _ _ _ _ _ hc h => (created_of_handler hc).trans h) hm hend
    | reopen => exact ih (w := { w with recent := [] }) h hn

theorem Lives.mono {Q Q' : List α → Store D H → Prop} (h : Lives B T call zero jobs v Q)
    (hQ : ∀ out v', Q out v' → Q' out v') : Lives B T call zero jobs v Q' := by
  induction jobs generalizing v Q Q' with
  | nil => exact hQ [] v h
  | cons j js ih =>
    cases j with
    | call i => exact Or.imp_left (·.mono fun a v₁ h₁ => ih h₁ fun out v' => hQ (a ++ out) v') h
    | reopen => exact Runs.mono h fun header v₁ h₁ => ih h₁ hQ

/-! ### Saving and opening again -/

/-- What the disk holds after `flush`. -/
theorem Flushed.blocks {b b' : PageBuffer D} {id : PageId} {d : D} (hF : Flushed b b') (hB : Backed b id d)
    (hC : Cached b id d) : b'.blocks id = d := by
  cases hl : b.pageTable.lookup id with
  | none =>
    rw [hF.others id fun s hs => by rw [hl] at hs; cases hs]
    exact hB.1 hl
  | some s =>
    cases hd : (b.pages s).dirty with
    | true =>
      rw [hF.saved id s hl hd]
      exact hC s hl
    | false =>
      rw [hF.others id fun s' hs' => by rw [Option.some.inj (hs'.symm.trans hl)]; exact hd]
      exact hB.2 s hl hd

variable (zero) in
/-- No page is lost when the tree is saved and opened again. -/
theorem Mirrors.reopen (hM : Mirrors B w v) (hpins : w.pins = []) :
    Runs (Store.handler B) (flushTree B) v fun header v₁ =>
      Mirrors B { w with recent := [] } (v₁.reopen B zero header) := by
  obtain ⟨mem, created, header, pins, recent, kept⟩ := w
  dsimp only at hpins
  subst hpins
  simp only [flushTree, Prog.bind_def, Prog.pure_def]
  refine runs_call rfl (runs_bind (p := StoreProg.buf (flush B)) ((runs_buf (flush_returns hM.inv)).mono ?_))
  rintro ⟨⟩ _ ⟨b, rfl, hF⟩
  refine runs_ret ?_
  obtain rfl : v.header = header := hM.header
  obtain rfl : b.created = created := by
    rw [hF.frame]
    exact hM.created
  exact mirrors_new fun id d hd => hF.blocks (hM.backed id d hd (by simp)) (hM.cached id d hd)

/-- What a life on the ideal store comes to, the life on the page buffer comes to. -/
theorem LivesIdeal.lives (hB : Serves B R T) (hM : Mirrors B w v) (hpins : w.pins = [])
    (h : LivesIdeal R call jobs w Q) :
    Lives B T call zero jobs v fun out v' => ∃ w', Mirrors B w' v' ∧ Q out w' := by
  induction jobs generalizing w v Q with
  | nil => exact ⟨w, hM, h⟩
  | cons j js ih =>
    cases j with
    | call i =>
      refine (ends_run hB hM h).imp_left (·.mono ?_)
      rintro a v₁ ⟨w₁, hM₁, -, hpins₁, h₁⟩
      exact ih hM₁ hpins₁ h₁
    | reopen =>
      refine (hM.reopen zero hpins).mono ?_
      intro header v₁ hM₁
      exact ih hM₁ hpins h

end BEpsilon.Buffer
