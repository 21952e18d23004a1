import BEpsilon.Buffer.Caching

/-!
# BEpsilon.Buffer.Outcomes — every way a `pinPage` may end

A page may be pinned already, and the table may be locked shared by calls that have not unlocked it.  A
page that is pinned only needs its latch; every other page has to have the table locked exclusively for a
moment, so that the call waits while somebody else shares the lock.
-/

namespace BEpsilon.Buffer

open PageBuffer

variable {D : Type} {R : BufRules} {b b' : PageBuffer D} {id id' : PageId} {mode : LatchMode D}
  {skipLoad : Bool} {index s n : ℕ} {l : Latch}

/-- The pins of a page; none when it is not in memory. -/
def PageBuffer.pinsOf (b : PageBuffer D) (id : PageId) : ℕ :=
  (b.pageTable.lookup id).elim 0 fun index => (b.pages index).pins

theorem pinsOf_some (h : b.pageTable.lookup id = some index) : b.pinsOf id = (b.pages index).pins := by
  rw [pinsOf, h]
  rfl

theorem pinsOf_none (h : b.pageTable.lookup id = none) : b.pinsOf id = 0 := by
  rw [pinsOf, h]
  rfl

theorem unpinned_iff : Unpinned b id ↔ b.pinsOf id = 0 := by
  cases hid : b.pageTable.lookup id with
  | none => simp [Unpinned, pinsOf_none hid, hid]
  | some index => simp [Unpinned, pinsOf_some hid, hid]

/-! ### With the table locked by others -/

section Shared

variable {α : Type} {Q : α → PageBuffer D → Prop}

theorem lockTable_shared (hb : b.tableMutex = ⟨false, n⟩) :
    handler R Unit (.lockTable false) b = .ok () (b.withTable ⟨false, n + 1⟩) := by
  simp [handler, hb, Latch.lock, withTable]

theorem unlockTable_shared {e : Bool} (hb : b.tableMutex = ⟨false, n⟩) :
    handler R Unit (.unlockTable e) (b.withTable ⟨false, n + 1⟩) = .ok () b := by
  obtain ⟨blocks, created, pages, pageTable, freeSlots, fifoQueue, lruQueue, tableMutex⟩ := b
  subst hb
  rfl

/-- The table cannot be locked exclusively. -/
theorem lockTable_blocked (hb : b.tableMutex = ⟨false, n⟩) (hn : n ≠ 0) :
    handler R Unit (.lockTable true) b = .raise .blocked b := by
  simp [handler, hb, Latch.lock, hn]

/-- A second round has to wait for the table. -/
theorem raises_pinAttempt (hb : b.tableMutex = ⟨false, n⟩) (hn : n ≠ 0)
    {f : Bool ⊕ ℕ → BufProg D α} :
    Raises (handler R) ((pinAttempt id mode skipLoad true).bind f) b .blocked fun _ => True := by
  simp only [pinAttempt, Prog.bind_def]
  exact raises_call (lockTable_blocked hb hn) trivial

theorem raises_check {c : Bool} {f : Unit → BufProg D α} {e : BufErr} {P : PageBuffer D → Prop} (hc : c = true)
    (h : Raises (handler R) (f ()) b e P) : Raises (handler R) ((Prog.cmd (.check c)).bind f) b e P := by
  refine raises_call_ok (b := ()) ?_ h
  simp [handler, hc]

theorem lockPage_blocked {e : Bool} (hl : (b.pages index).mutex.lock e = none) :
    handler R Unit (.lockPage index e) b = .raise .blocked b := by
  simp [handler, hl]

theorem latchPage_blocked (hl : (b.pages index).mutex.lock (mode.exclusive (b.pages index).data) = none)
    {f : Unit → BufProg D α} :
    Raises (handler R) ((latchPage index mode).bind f) b .blocked fun _ => True := by
  cases mode with
  | fixed e => exact raises_call (lockPage_blocked hl) trivial
  | modeFunction g => exact raises_call_ok rfl (raises_call (lockPage_blocked hl) trivial)

end Shared

/-! ### The rounds -/

section Rounds

theorem runs_findUnpinned_self (v : Victims) : Runs (handler R) (findUnpinned v) (b.withTable l) fun r b' =>
    r = b.findIn v ∧ b' = b.withTable l := by
  have h := runs_findUnpinned (R := R) (v := v) (l := l) (b := b) (f := .ret)
    (runs_ret (Q := fun r b' => r = b.findIn v ∧ b' = b.withTable l) ⟨rfl, rfl⟩)
  rwa [Prog.bind_ret] at h

theorem lockPage_ok {e : Bool} (hl : (b.pages index).mutex.lock e = some l) :
    handler R Unit (.lockPage index e) b = .ok () (b.modifyPage index fun page => { page with mutex := l }) := by
  simp [handler, hl]

/-- A page that is pinned already only has to be latched. -/
theorem pinPage_pinned (hb : b.tableMutex = ⟨false, n⟩) (hid : b.pageTable.lookup id = some index)
    (hpins : (b.pages index).pins ≠ 0)
    (hl : (b.pages index).mutex.lock (mode.exclusive (b.pages index).data) = some l) :
    Runs (handler R) (pinPage id mode skipLoad) b fun r b' => r = index ∧
      b' = b.modifyPage index fun page => { page with pins := page.pins + 1, mutex := l } := by
  refine runs_unroll (runs_bind ?_)
  simp only [pinAttempt, Prog.bind_def]
  refine runs_call (lockTable_shared hb) (runs_findPage ?_)
  simp only [hid, pinHit, Prog.bind_def, Prog.pure_def]
  refine runs_call rfl (runs_check (by simp) ?_)
  rw [if_neg (by simp [hpins]), if_neg (by simpa using hpins), modifyPage_withTable]
  refine runs_call (unlockTable_shared (by exact hb)) (runs_latchPage (l := l) (by simpa using hl) ?_)
  rw [modifyPage_modifyPage]
  exact runs_ret (runs_ret ⟨rfl, rfl⟩)

/-- It waits for its latch. -/
theorem pinPage_pinned_blocked (hb : b.tableMutex = ⟨false, n⟩) (hid : b.pageTable.lookup id = some index)
    (hpins : (b.pages index).pins ≠ 0)
    (hl : (b.pages index).mutex.lock (mode.exclusive (b.pages index).data) = none) :
    Raises (handler R) (pinPage id mode skipLoad) b .blocked fun _ => True := by
  refine raises_unroll (Raises.bind ?_)
  simp only [pinAttempt, Prog.bind_def]
  refine raises_call_ok (lockTable_shared hb) (raises_call_ok rfl ?_)
  simp only [withTable_pageTable, hid, pinHit, Prog.bind_def, Prog.pure_def, Prog.ret_bind]
  refine raises_call_ok rfl (raises_check (by simp) ?_)
  rw [if_neg (by simp [hpins]), if_neg (by simpa using hpins), modifyPage_withTable]
  exact raises_call_ok (unlockTable_shared (by exact hb)) (latchPage_blocked (by simpa using hl))

/-- A page without pins waits for the table, and so does a page that is to be loaded into a free slot. -/
theorem pinPage_blocked (hb : b.tableMutex = ⟨false, n⟩) (hn : n ≠ 0)
    (hid : (b.pageTable.lookup id = none ∧ b.pageTable.entries.length < R.N) ∨
      ∃ s, b.pageTable.lookup id = some s ∧ (b.pages s).pins = 0) :
    Raises (handler R) (pinPage id mode skipLoad) b .blocked fun _ => True := by
  refine raises_unroll (Runs.raises_bind ?_)
  have hfirst : Runs (handler R) (pinAttempt id mode skipLoad false) b fun r b' =>
      r = .inl true ∧ b' = b := by
    simp only [pinAttempt, Prog.bind_def]
    refine runs_call (lockTable_shared hb) (runs_findPage ?_)
    rcases hid with ⟨hid, hspace⟩ | ⟨s, hid, hpins⟩
    · simp only [hid]
      refine runs_hasSpace ?_
      rw [if_pos (decide_eq_true hspace)]
      simp only [pinFree, Prog.bind_def, Prog.pure_def, if_true]
      exact runs_call (unlockTable_shared hb) (runs_ret ⟨rfl, rfl⟩)
    · simp only [hid, pinHit, Prog.bind_def, Prog.pure_def]
      refine runs_call rfl (runs_check (by simp) ?_)
      rw [if_pos (by simp [hpins])]
      refine runs_call rfl ?_
      rw [modifyPage_modifyPage, modifyPage_withTable, modifyPage_id rfl]
      exact runs_call (unlockTable_shared hb) (runs_ret ⟨rfl, rfl⟩)
  refine hfirst.mono ?_
  rintro _ _ ⟨rfl, rfl⟩
  exact raises_unroll (raises_pinAttempt hb hn)

/-- A page that is to replace another one waits for the table. -/
theorem pinPage_evict_blocked {v : Victims} {key : PageId} (hb : b.tableMutex = ⟨false, n⟩) (hn : n ≠ 0)
    (hid : b.pageTable.lookup id = none) (hfull : ¬ b.pageTable.entries.length < R.N)
    (hv : b.victim = some (v, key)) (hkey : (b.queue v).find key = some index)
    (hm : (b.pages index).mutex = {}) :
    Raises (handler R) (pinPage id mode skipLoad) b .blocked fun _ => True := by
  have hevict : Raises (handler R) (pinEvict id mode skipLoad false v key) (b.withTable ⟨false, n + 1⟩) .blocked
      fun _ => True := by
    simp only [pinEvict, Prog.bind_def, Prog.pure_def]
    refine raises_call_ok rfl ?_
    simp only [withTable_queue, hkey, Prog.ret_bind]
    refine raises_call_ok rfl ?_
    simp only [writeBack, Prog.bind_def, Prog.ret_bind, modifyPage_withTable]
    refine Raises.bind (raises_call_ok rfl ?_)
    rw [Prog.ret_bind]
    split
    · refine raises_call_ok rfl ?_
      rw [modifyPage_withTable, modifyPage_modifyPage]
      refine raises_call_ok (lockPage_ok (l := ⟨false, 1⟩) (by simp [hm]; rfl)) ?_
      rw [modifyPage_withTable, modifyPage_modifyPage]
      refine raises_call_ok (unlockTable_shared (by exact hb)) (raises_call_ok rfl (raises_call_ok rfl ?_))
      exact raises_call (lockTable_blocked (by exact hb) hn) trivial
    · refine raises_call_ok (unlockTable_shared (by exact hb)) ?_
      exact raises_call (lockTable_blocked (by exact hb) hn) trivial
  refine raises_unroll (Raises.bind ?_)
  simp only [pinAttempt, Prog.bind_def]
  refine raises_call_ok (lockTable_shared hb) (raises_call_ok rfl ?_)
  simp only [withTable_pageTable, hid, Prog.ret_bind]
  refine raises_call_ok rfl ?_
  rw [withTable_pageTable, Prog.ret_bind, if_neg (by simpa using hfull)]
  refine Runs.raises_bind ((runs_findUnpinned_self .fifo).mono ?_)
  rintro _ _ ⟨rfl, rfl⟩
  unfold victim at hv
  cases hfifo : b.findIn .fifo with
  | some key' =>
    obtain ⟨rfl, rfl⟩ := by simpa [hfifo] using hv
    exact hevict
  | none =>
    rw [hfifo] at hv
    obtain ⟨key', hlru, e⟩ := Option.map_eq_some_iff.mp hv
    obtain ⟨rfl, rfl⟩ := by simpa using e
    refine Runs.raises_bind ((runs_findUnpinned_self .lru).mono ?_)
    rintro _ _ ⟨rfl, rfl⟩
    rw [hlru]
    exact hevict

/-- Every slot is taken and pinned. -/
theorem pinPage_full_shared (hb : b.tableMutex = ⟨false, n⟩) (hid : b.pageTable.lookup id = none)
    (hfull : ¬ b.pageTable.entries.length < R.N) (hv : b.victim = none) :
    Raises (handler R) (pinPage id mode skipLoad) b .bufferFull fun b' =>
      b' = b.withTable ⟨false, n + 1⟩ := by
  obtain ⟨hfifo, hlru⟩ : b.findIn .fifo = none ∧ b.findIn .lru = none := by
    unfold victim at hv
    split at hv
    · simp at hv
    · exact ⟨‹_›, by simpa using hv⟩
  refine raises_unroll (Raises.bind ?_)
  simp only [pinAttempt, Prog.bind_def]
  refine raises_call_ok (lockTable_shared hb) (raises_call_ok rfl ?_)
  simp only [withTable_pageTable, hid, Prog.ret_bind]
  refine raises_call_ok rfl ?_
  rw [withTable_pageTable, Prog.ret_bind, if_neg (by simpa using hfull)]
  refine Runs.raises_bind ((runs_findUnpinned_self .fifo).mono ?_)
  rintro _ _ ⟨rfl, rfl⟩
  rw [hfifo]
  refine Runs.raises_bind ((runs_findUnpinned_self .lru).mono ?_)
  rintro _ _ ⟨rfl, rfl⟩
  rw [hlru]
  exact raises_call rfl rfl

end Rounds

/-! ### Pin counts -/

section Counts

theorem LatchOk.pinned {page : Page D} {e : Bool} (h : LatchOk page) (hp : page.pins ≠ 0)
    (hl : page.mutex.lock e = some l) : LatchOk { page with pins := page.pins + 1, mutex := l } := by
  obtain ⟨data, id, ⟨x, m⟩, pins, dirty⟩ := page
  unfold LatchOk at h ⊢
  unfold Latch.lock at hl
  cases x <;> cases e <;> simp_all
  subst hl
  exact ⟨rfl, rfl⟩

/-- What a `pinPage` that returned has done to the pins: the page has one more, and a page that was pinned
is where it was. -/
structure OneMore (R : BufRules) (b b' : PageBuffer D) (id : PageId) (s : ℕ) : Prop where
  inv : Inv R b'
  slot : b'.pageTable.lookup id = some s
  self : b'.pinsOf id = b.pinsOf id + 1
  others : ∀ id', id' ≠ id → b'.pinsOf id' = b.pinsOf id'
  stays : ∀ id' s', b.pageTable.lookup id' = some s' → (b.pages s').pins ≠ 0 → b'.pageTable.lookup id' = some s'

theorem PinPost.oneMore (hun : Unpinned b id) (hP : PinPost R b b' id mode skipLoad s) : OneMore R b b' id s := by
  refine ⟨hP.inv, hP.slot, ?_, ?_, hP.pinned⟩
  · rw [pinsOf_some hP.slot, hP.pins, unpinned_iff.mp hun]
  · intro id' hne
    cases hid' : b'.pageTable.lookup id' with
    | some s' =>
      have hs' : s' ≠ s := by
        rintro rfl
        exact hne (hP.inv.inj id' id _ hid' hP.slot)
      rw [pinsOf_some hid', hP.pages s' hs', pinsOf_some (hP.kept id' hne s' hid')]
    | none =>
      rw [pinsOf_none hid']
      symm
      apply unpinned_iff.mp
      -- a page that was evicted had no pins
      intro s' hs'
      by_contra hpins
      rw [hP.pinned id' s' hs' hpins] at hid'
      cases hid'

/-- Only the page in a slot is concerned by what is changed there. -/
theorem Inv.pinsOf_modifyPage {f : Page D → Page D} (hI : Inv R b) (hid : b.pageTable.lookup id = some index) :
    (b.modifyPage index f).pinsOf id = (f (b.pages index)).pins ∧
      ∀ id', id' ≠ id → (b.modifyPage index f).pinsOf id' = b.pinsOf id' := by
  refine ⟨?_, ?_⟩
  · rw [pinsOf_some (b := b.modifyPage index f) hid, modifyPage_pages_self]
  · intro id' hne
    cases hid' : b.pageTable.lookup id' with
    | none => rw [pinsOf_none hid', pinsOf_none (b := b.modifyPage index f) hid']
    | some s' =>
      have hs' : s' ≠ index := by
        rintro rfl
        exact hne (hI.inj id' id _ hid' hid)
      rw [pinsOf_some hid', pinsOf_some (b := b.modifyPage index f) hid', modifyPage_pages_ne hs']

theorem pinsOf_modifyPage_same {f : Page D → Page D} (hf : (f (b.pages index)).pins = (b.pages index).pins)
    (id : PageId) : (b.modifyPage index f).pinsOf id = b.pinsOf id := by
  cases hid : b.pageTable.lookup id with
  | none => rw [pinsOf_none hid, pinsOf_none (b := b.modifyPage index f) hid]
  | some s =>
    rw [pinsOf_some hid, pinsOf_some (b := b.modifyPage index f) hid]
    by_cases hs : s = index
    · subst hs
      rw [modifyPage_pages_self, hf]
    · rw [modifyPage_pages_ne hs]

/-- A page that is pinned already has one pin more. -/
theorem Inv.oneMore (hI : Inv R b) (hid : b.pageTable.lookup id = some index) (hpins : (b.pages index).pins ≠ 0)
    {e : Bool} (hl : (b.pages index).mutex.lock e = some l) :
    OneMore R b (b.modifyPage index fun page => { page with pins := page.pins + 1, mutex := l }) id index := by
  obtain ⟨hself, hothers⟩ := hI.pinsOf_modifyPage (f := fun page => { page with pins := page.pins + 1, mutex := l }) hid
  refine ⟨?_, hid, ?_, hothers, fun id' s' h _ => h⟩
  · exact hI.modifyPage rfl ((hI.latch index).pinned hpins hl) fun hfree => absurd hfree (hI.not_free hid)
  · rw [hself, pinsOf_some hid]

/-- A `pinPage` that does not stop adds one pin. -/
theorem Inv.pinPage_outcome (hI : Inv R b) (id : PageId) (mode : LatchMode D) (skipLoad : Bool) :
    Runs (handler R) (pinPage id mode skipLoad) b (fun s b' => OneMore R b b' id s) ∨
      ∃ e, Raises (handler R) (pinPage id mode skipLoad) b e fun _ => True := by
  by_cases hun : Unpinned b id
  · by_cases hroom : b.pageTable.lookup id ≠ none ∨ ∃ s < R.N, (b.pages s).pins = 0
    · exact .inl ((pinPage_returns hI hun hroom).mono fun _ _ hP => hP.oneMore hun)
    · obtain ⟨hid, hno⟩ := not_or.mp hroom
      have hfull : Raises (handler R) (pinPage id mode skipLoad) b .bufferFull fun b' =>
          b' = b.withTable (held false) := pinPage_raises hI (not_not.mp hid) fun s hs hp => hno ⟨s, hs, hp⟩
      obtain ⟨m, b', hm, -⟩ := hfull
      exact .inr ⟨.bufferFull, m, b', hm, trivial⟩
  · obtain ⟨index, hunpinned⟩ := not_forall.mp hun
    obtain ⟨hid, hpins⟩ := Classical.not_imp.mp hunpinned
    cases hl : (b.pages index).mutex.lock (mode.exclusive (b.pages index).data) with
    | none => exact .inr ⟨.blocked, pinPage_pinned_blocked (n := 0) hI.unlocked hid hpins hl⟩
    | some l =>
      refine .inl ((pinPage_pinned (n := 0) hI.unlocked hid hpins hl).mono ?_)
      rintro _ _ ⟨rfl, rfl⟩
      exact hI.oneMore hid hpins hl

end Counts

end BEpsilon.Buffer
