import BEpsilon.BTree.Refine
import BEpsilon.Buffer.Rounds

/-!
# BEpsilon.BTree.OnBuffer — the B-tree over the page buffer

A session of calls never pins more than three pages and releases every changed page dirty, so it runs
on a page buffer of three slots as it runs on the ideal store; and it may be saved and opened again in
between.
-/

namespace BEpsilon.BTree

open Buffer

variable {K V : Type} [LinearOrder K] [DecidableEq V] [Add V] [Inhabited K] [Inhabited V]

/-- An ideal store with the ids of a buffer and room for `limit` pages. -/
def idealFor (B : BufRules) (limit : Option ℕ) : PageRules := ⟨true, limit, B.ids, B.ids_inj⟩

/-- On a page buffer of at least three slots every call of a session returns, with the answers that it
gives when every page stays in memory forever; no call pins more than three pages at once, and every
page that it changes is released dirty. -/
theorem session_on_buffer (B : BufRules) (hN : 3 ≤ B.N) (N : NodeSizes) (blocks : PageId → BNode K V)
    (zero : BNode K V) (ops : List (MapOp K V)) :
    (Runs (Store.handler B) (onBuffer (session N ops)) (.open {} (PageBuffer.new B blocks 0 zero))
      fun out _ => Runs (PageWorld.handler (idealFor B none)) (session N ops) (.empty {}) fun out' _ =>
        out = out') ∧
    Runs (PageWorld.handler (idealFor B (some 3))) (session N ops) (.empty {}) fun _ w => w.kept := by
  have hideal := session_spec (R := idealFor B none) (N := N) (by simp [idealFor]) ops
  have hthree := session_spec (R := idealFor B (some 3)) (N := N) (by simp [idealFor]) ops
  refine ⟨?_, hthree.mono fun _ _ h => h.2.kept⟩
  have hB : Serves B (idealFor B (some 3)) fun _ => False := ⟨rfl, fun _ => rfl, .inl ⟨3, rfl, hN⟩⟩
  have hM : Mirrors B (.empty ({} : Header)) (.open {} (PageBuffer.new B blocks 0 zero)) :=
    mirrors_new (by simp)
  have hrun := (ends_run hB hM (hthree.mono fun _ _ h => ⟨h.2.kept, h⟩)).runs fun _ => id
  refine hrun.mono ?_
  rintro out _ ⟨_, -, -, rfl, -⟩
  exact hideal.mono fun _ _ h => h.1.symm

/-- Insertions that split leaves and inner nodes, and three lookups. -/
def splittingOps : List (MapOp ℕ ℕ) :=
  [.insert 1 10, .insert 2 20, .insert 3 30, .insert 4 40, .insert 5 50, .insert 6 60, .update 1 5, .erase 2,
    .find 1, .find 2, .find 6]

/-- The eight pages of a tree over three slots, which are evicted and loaded again. -/
theorem session_on_three_slots :
    (Runs (Store.handler (.basic 3)) (onBuffer (session ⟨2, 3, le_rfl, le_rfl, rfl⟩ splittingOps))
      (.open {} (PageBuffer.new (.basic 3) (fun _ => .fresh true) 0 (.fresh true)))
      fun out _ => out = [some 15, none, some 60]) ∧
    Runs (PageWorld.handler (idealFor (.basic 3) (some 3))) (session ⟨2, 3, le_rfl, le_rfl, rfl⟩ splittingOps)
      (.empty {}) fun _ w => w.kept ∧ w.created = 8 := by
  obtain ⟨hbuffer, hkept⟩ := session_on_buffer (.basic 3) (by decide) ⟨2, 3, le_rfl, le_rfl, rfl⟩
    (fun _ => .fresh true) (.fresh true) splittingOps
  have hideal : execHolds (PageWorld.handler (idealFor (.basic 3) none)) 3000
      (session ⟨2, 3, le_rfl, le_rfl, rfl⟩ splittingOps) (.empty {})
      (fun out _ => out == [some 15, none, some 60]) = true := by
    decide +kernel
  have hthree : execHolds (PageWorld.handler (idealFor (.basic 3) (some 3))) 3000
      (session ⟨2, 3, le_rfl, le_rfl, rfl⟩ splittingOps) (.empty {}) (fun _ w => w.created == 8) = true := by
    decide +kernel
  refine ⟨hbuffer.mono fun out _ h => ?_, (hkept.det (runs_of_exec hthree)).mono fun _ w h => ⟨h.1, by simpa using h.2⟩⟩
  obtain ⟨-, out', -, -, rfl, hout⟩ := h.det (runs_of_exec hideal)
  simpa using hout

/-! ### Saved and opened again -/

theorem livesIdeal_calls {R : PageRules} {N : NodeSizes} {L : K → Option V} {root : PageId}
    {w : PageWorld (BNode K V) Header} (hlim : ∀ n ∈ R.limit, 3 ≤ n) (hw : AtRest R N root L w)
    (jobs : List (Job (MapOp K V))) :
    LivesIdeal R (call N) jobs w fun out w' =>
      out = MapOp.answers L (Job.calls jobs) ∧ AtRest R N root (MapOp.applyAll L (Job.calls jobs)) w' := by
  induction jobs generalizing L w with
  | nil => exact ⟨rfl, hw⟩
  | cons j js ih =>
    cases j with
    | call op =>
      refine ((call_spec hlim hw op)).mono ?_
      rintro a w₁ ⟨rfl, hw₁⟩
      refine ⟨hw₁.kept, hw₁.pins, (ih hw₁).mono ?_⟩
      rintro out w₂ ⟨rfl, hw₂⟩
      exact ⟨rfl, hw₂⟩
    | reopen =>
      have hw' : AtRest R N root L { w with recent := [] } := ⟨hw.tree, hw.rootID, hw.pins, hw.kept⟩
      exact ih hw'

/-- On a page buffer of at least three slots a B-tree may be saved and opened again after any call, any number of
times: no call raises an error, and every `find` answers as the plain map does after all calls before it, those
before the tree was opened again included. -/
theorem rounds_refine_map (B : BufRules) (hN : 3 ≤ B.N) (N : NodeSizes) (blocks : PageId → BNode K V)
    (zero : BNode K V) (jobs : List (Job (MapOp K V))) :
    Runs (Store.handler B) (onBuffer create) (.open {} (PageBuffer.new B blocks 0 zero)) fun _ v =>
      Lives B (fun _ => False) (call N) zero jobs v fun out _ =>
        out = MapOp.answers (fun _ => none) (Job.calls jobs) := by
  have hB : Serves B (idealFor B (some 3)) fun _ => False := ⟨rfl, fun _ => rfl, .inl ⟨3, rfl, hN⟩⟩
  have hlim : ∀ n ∈ (idealFor B (some 3)).limit, 3 ≤ n := by simp [idealFor]
  have hM : Mirrors B (.empty ({} : Header)) (.open {} (PageBuffer.new B blocks 0 zero)) :=
    mirrors_new (by simp)
  have hcreate := (create_spec (K := K) (V := V) (N := N) hlim)
  refine ((ends_run hB hM (hcreate.mono fun _ _ hw => ⟨hw.kept, hw⟩)).runs fun _ => id).mono ?_
  rintro _ v ⟨w, hM, -, hw⟩
  refine ((livesIdeal_calls hlim hw jobs).lives hB hM hw.pins).mono ?_
  rintro out _ ⟨_, -, rfl, -⟩
  rfl

/-- Pairs that are inserted, saved, and found in the tree that is opened on the directory. -/
theorem rounds_refine_map_twice :
    Runs (Store.handler (.basic 3)) (onBuffer create)
      (.open {} (PageBuffer.new (.basic 3) (fun _ => .fresh true) 0 (.fresh true))) fun _ v =>
      Lives (.basic 3) (fun _ => False) (call ⟨2, 3, le_rfl, le_rfl, rfl⟩) (.fresh true)
        [.call (.insert 1 5), .call (.insert 2 6), .call (.insert 3 7), .reopen, .call (.insert 4 8), .call (.erase 2),
          .reopen, .call (.find (1 : ℕ)), .call (.find 2), .call (.find 4)] v
        fun out _ => out = [some (5 : ℕ), none, some 8] :=
  rounds_refine_map (.basic 3) (by decide) _ _ _ _

end BEpsilon.BTree
