import BEpsilon.Buffer.Outcomes

/-!
# BEpsilon.Buffer.Outstanding — the representation invariant over the calls of one thread

A `Holder` is the page buffer with the references that its user holds: one for each `pinPage` that was not
undone by an `unpinPage`, with the page id that was asked for and the slot that came back.  A page may be
pinned any number of times.  As long as no call raises, the containers of the buffer agree with each other
and the pins with the references.
-/

namespace BEpsilon.Buffer

open PageBuffer

variable {D : Type}

structure Holder (D : Type) where
  buf : PageBuffer D
  /-- pins that are outstanding -/
  refs : List (PageId × ℕ) := []

namespace Holder

/-- How many pins of a page are outstanding. -/
def outstanding (h : Holder D) (id : PageId) : ℕ := h.refs.countP fun r => r.1 = id

/-- The calls that return.  Only what is pinned is unpinned, and written to. -/
inductive Step (R : BufRules) : Holder D → Holder D → Prop
  | createPage {h : Holder D} {id : PageId} {b' : PageBuffer D}
      (hr : Returns (handler R) (Prog.cmd .createBlock) h.buf id b') : Step R h { h with buf := b' }
  | pinPage {h : Holder D} {id : PageId} {mode : LatchMode D} {skipLoad : Bool} {s : ℕ} {b' : PageBuffer D}
      (hr : Returns (handler R) (Buffer.pinPage id mode skipLoad) h.buf s b') :
      Step R h { buf := b', refs := (id, s) :: h.refs }
  | unpinPage {h : Holder D} {r : PageId × ℕ} {dirty : Bool} {b' : PageBuffer D} (href : r ∈ h.refs)
      (hr : Returns (handler R) (Buffer.unpinPage r.2 dirty) h.buf () b') :
      Step R h { buf := b', refs := h.refs.erase r }
  | flush {h : Holder D} {b' : PageBuffer D} (hr : Returns (handler R) (Buffer.flush R) h.buf () b') :
      Step R h { h with buf := b' }
  | write {h : Holder D} {r : PageId × ℕ} {d : D} {b' : PageBuffer D} (href : r ∈ h.refs)
      (hr : Returns (handler R) (Prog.cmd (.writePage r.2 d)) h.buf () b') : Step R h { h with buf := b' }

/-- What any calls lead to, from a new buffer on any directory. -/
inductive Reach (R : BufRules) : Holder D → Prop
  | new (blocks : PageId → D) (created : ℕ) (zero : D) : Reach R { buf := .new R blocks created zero }
  | step {h h' : Holder D} (hr : Reach R h) (hs : Step R h h') : Reach R h'

/-- The containers agree, and the pins are the outstanding ones. -/
structure Ok (R : BufRules) (h : Holder D) : Prop where
  inv : Inv R h.buf
  pins : ∀ id, h.buf.pinsOf id = h.outstanding id
  slots : ∀ r ∈ h.refs, h.buf.pageTable.lookup r.1 = some r.2

variable {R : BufRules} {h h' : Holder D} {b' : PageBuffer D} {id : PageId} {s : ℕ} {r : PageId × ℕ}

theorem ok_new (R : BufRules) (blocks : PageId → D) (created : ℕ) (zero : D) :
    Ok R { buf := .new R blocks created zero } :=
  ⟨inv_new R blocks created zero, fun _ => rfl, fun _ hr => absurd hr List.not_mem_nil⟩

theorem outstanding_pos (href : r ∈ h.refs) : 0 < h.outstanding r.1 :=
  List.countP_pos_iff.mpr ⟨r, href, by simp⟩

/-- A call that changes no table and no pins. -/
theorem Ok.same (hok : Ok R h) (hinv : Inv R b') (htable : b'.pageTable = h.buf.pageTable)
    (hpins : ∀ id, b'.pinsOf id = h.buf.pinsOf id) : Ok R { h with buf := b' } := by
  refine ⟨hinv, ?_, ?_⟩
  · intro id
    rw [hpins id]
    exact hok.pins id
  · rw [htable]
    exact hok.slots

theorem Ok.pin (hok : Ok R h) (hone : OneMore R h.buf b' id s) :
    Ok R { buf := b', refs := (id, s) :: h.refs } := by
  refine ⟨hone.inv, ?_, ?_⟩
  · intro id'
    by_cases hid : id' = id
    · subst hid
      rw [hone.self, hok.pins, outstanding, outstanding, List.countP_cons_of_pos (by simp)]
    · rw [hone.others id' hid, hok.pins, outstanding, outstanding,
        List.countP_cons_of_neg (by simpa using Ne.symm hid)]
  · intro r hr
    rcases List.mem_cons.mp hr with rfl | hr
    · exact hone.slot
    · -- a page with an outstanding pin is not evicted
      have hslot := hok.slots r hr
      have hpos := outstanding_pos hr
      rw [← hok.pins, pinsOf_some hslot] at hpos
      exact hone.stays r.1 r.2 hslot (Nat.ne_of_gt hpos)

theorem Ok.unpin (hok : Ok R h) (href : r ∈ h.refs) (dirty : Bool) :
    Ok R { buf := h.buf.modifyPage r.2 fun page => page.unpinned dirty, refs := h.refs.erase r } := by
  have hslot := hok.slots r href
  have hpos := outstanding_pos href
  have hpins : (h.buf.pages r.2).pins = h.outstanding r.1 := by rw [← hok.pins, pinsOf_some hslot]
  obtain ⟨hself, hothers⟩ := hok.inv.pinsOf_modifyPage (f := fun page => page.unpinned dirty) hslot
  refine ⟨hok.inv.unpinned (by omega) dirty, ?_, ?_⟩
  · intro id
    dsimp only
    by_cases hid : id = r.1
    · subst hid
      rw [hself, outstanding, List.countP_erase, if_pos (by simpa using href)]
      exact congrArg (· - 1) hpins
    · rw [hothers id hid, hok.pins, outstanding, outstanding, List.countP_erase,
        if_neg (by simpa using fun _ => Ne.symm hid), Nat.sub_zero]
  · intro r' hr'
    exact hok.slots r' (List.mem_of_mem_erase hr')

/-- Each call keeps the invariant. -/
theorem Ok.step (hok : Ok R h) (hs : Step R h h') : Ok R h' := by
  cases hs with
  | createPage hr =>
    obtain rfl := hr.of_runs (Q := fun _ b' => b' = { h.buf with created := h.buf.created + 1 })
      (runs_call rfl (runs_ret rfl))
    exact hok.same hok.inv.createBlock rfl fun _ => rfl
  | @pinPage id mode skipLoad s b' hr =>
    rcases hok.inv.pinPage_outcome id mode skipLoad with hruns | ⟨e, hraises⟩
    · exact hok.pin (hr.of_runs hruns)
    · exact absurd hraises hr.not_raises
  | @unpinPage r dirty b' href hr =>
    have hpos := outstanding_pos href
    rw [← hok.pins, pinsOf_some (hok.slots r href)] at hpos
    obtain rfl := hr.of_runs (unpinPage_returns hpos)
    exact hok.unpin href dirty
  | flush hr =>
    have hF := hr.of_runs (flush_returns hok.inv)
    have hframe := hF.frame
    refine hok.same (hF.inv hok.inv) (by rw [hframe]) ?_
    intro id
    rw [pinsOf, pinsOf, hframe]
  | @write r d b' href hr =>
    obtain rfl := hr.of_runs (Q := fun _ b' => b' = h.buf.modifyPage r.2 fun page => { page with data := d })
      (runs_call rfl (runs_ret rfl))
    refine hok.same ?_ rfl (pinsOf_modifyPage_same rfl)
    exact hok.inv.modifyPage (f := fun page => { page with data := d }) rfl (hok.inv.latch r.2)
      (hok.inv.free_pins r.2)

/-- All calls. -/
theorem Reach.ok (hr : Reach R h) : Ok R h := by
  induction hr with
  | new blocks created zero => exact ok_new R blocks created zero
  | step _ hs ih => exact ih.step hs

/-- After any calls of one thread of which none raises, the table, the free slots, the queues and the slots
agree, and a page has as many pins as are outstanding. -/
theorem reach_represents (hr : Reach R h) : Inv R h.buf ∧
    (∀ id s, h.buf.pageTable.lookup id = some s → (h.buf.pages s).pins = h.outstanding id) ∧
    (∀ id, h.buf.pageTable.lookup id = none → h.outstanding id = 0) ∧
    ∀ r ∈ h.refs, h.buf.pageTable.lookup r.1 = some r.2 := by
  have hok := hr.ok
  refine ⟨hok.inv, ?_, ?_, hok.slots⟩
  · intro id s hid
    rw [← hok.pins, pinsOf_some hid]
  · intro id hid
    rw [← hok.pins, pinsOf_none hid]

/-- One slot: page 0 is pinned and unpinned, page 1 evicts it and is pinned twice. -/
theorem reach_represents_twice : ∃ h : Holder ℕ, h.refs = [(1, 0), (1, 0)] ∧ Inv (.basic 1) h.buf ∧
    (h.buf.pages 0).pins = 2 := by
  have h₀ : Reach (.basic 1) (⟨.new (.basic 1) (fun _ => 0) 0 0, []⟩ : Holder ℕ) := .new _ _ _
  have h₂ := (h₀.step (.createPage ⟨2, rfl⟩)).step (.createPage ⟨2, rfl⟩)
  have h₃ := h₂.step (@Step.pinPage _ _ _ 0 (.fixed true) true _ _ ⟨40, rfl⟩)
  have h₄ := h₃.step (@Step.unpinPage _ _ _ (0, 0) true _ List.mem_cons_self ⟨10, rfl⟩)
  have h₅ := h₄.step (.flush ⟨10, rfl⟩)
  have h₆ := h₅.step (@Step.pinPage _ _ _ 1 (.fixed false) false _ _ ⟨40, rfl⟩)
  have h₇ := h₆.step (@Step.pinPage _ _ _ 1 (.fixed false) false _ _ ⟨40, rfl⟩)
  obtain ⟨h, hreach, hrefs, hslot⟩ : ∃ h : Holder ℕ, Reach (.basic 1) h ∧ h.refs = [(1, 0), (1, 0)] ∧
      h.buf.pageTable.lookup 1 = some 0 := ⟨_, h₇, rfl, rfl⟩
  obtain ⟨hinv, hpins, -, -⟩ := reach_represents hreach
  refine ⟨h, hrefs, hinv, ?_⟩
  rw [hpins 1 0 hslot, outstanding, hrefs]
  rfl

end Holder

end BEpsilon.Buffer
