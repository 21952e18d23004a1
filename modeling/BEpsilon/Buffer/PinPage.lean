import BEpsilon.Buffer.PageBuffer

/-!
# BEpsilon.Buffer.PinPage — what `pinPage` does when nobody interferes

Each of the four paths of `pinPage`, run by one thread with the table unlocked, ends in a state that
is written down here: a hit, a free slot, an eviction, and the full buffer, which raises.
-/

namespace BEpsilon.Buffer

namespace PageBuffer

variable {D : Type} {b : PageBuffer D} {index : ℕ} {f g : Page D → Page D}

@[simp] theorem modifyPage_pages_self : (b.modifyPage index f).pages index = f (b.pages index) := by
  simp [modifyPage]

theorem modifyPage_pages_ne {i : ℕ} (h : i ≠ index) :
    (b.modifyPage index f).pages i = b.pages i := by
  simp [modifyPage, h]

theorem modifyPage_modifyPage :
    (b.modifyPage index f).modifyPage index g = b.modifyPage index (g ∘ f) := by
  simp [modifyPage]

theorem modifyPage_id (h : f (b.pages index) = b.pages index) : b.modifyPage index f = b := by
  rw [modifyPage, h, Function.update_eq_self]

theorem modifyPage_congr (h : f (b.pages index) = g (b.pages index)) :
    b.modifyPage index f = b.modifyPage index g := by
  rw [modifyPage, modifyPage, h]

@[simp] theorem modifyPage_blocks : (b.modifyPage index f).blocks = b.blocks := rfl
@[simp] theorem modifyPage_created : (b.modifyPage index f).created = b.created := rfl
@[simp] theorem modifyPage_pageTable : (b.modifyPage index f).pageTable = b.pageTable := rfl
@[simp] theorem modifyPage_freeSlots : (b.modifyPage index f).freeSlots = b.freeSlots := rfl
@[simp] theorem modifyPage_fifoQueue : (b.modifyPage index f).fifoQueue = b.fifoQueue := rfl
@[simp] theorem modifyPage_lruQueue : (b.modifyPage index f).lruQueue = b.lruQueue := rfl
@[simp] theorem modifyPage_tableMutex : (b.modifyPage index f).tableMutex = b.tableMutex := rfl
@[simp] theorem modifyPage_queue (v : Victims) : (b.modifyPage index f).queue v = b.queue v := by
  cases v <;> rfl

end PageBuffer

/-- The buffer with another state of the table mutex. -/
def PageBuffer.withTable {D : Type} (b : PageBuffer D) (l : Latch) : PageBuffer D :=
  { b with tableMutex := l }

namespace PageBuffer

variable {D : Type} {b : PageBuffer D} {l l' : Latch} {index : ℕ} {f : Page D → Page D}

@[simp] theorem withTable_pages : (b.withTable l).pages = b.pages := rfl
@[simp] theorem withTable_blocks : (b.withTable l).blocks = b.blocks := rfl
@[simp] theorem withTable_pageTable : (b.withTable l).pageTable = b.pageTable := rfl
@[simp] theorem withTable_queue (v : Victims) : (b.withTable l).queue v = b.queue v := by
  cases v <;> rfl
@[simp] theorem withTable_withTable : (b.withTable l).withTable l' = b.withTable l' := rfl
@[simp] theorem modifyPage_withTable :
    (b.withTable l).modifyPage index f = (b.modifyPage index f).withTable l := rfl

@[simp] theorem withTable_reposition {id : PageId} {s : ℕ} :
    (b.withTable l).reposition id s = (b.reposition id s).withTable l := rfl

@[simp] theorem modifyPage_reposition {id : PageId} {s : ℕ} :
    (b.modifyPage index f).reposition id s = (b.reposition id s).modifyPage index f := rfl

@[simp] theorem reposition_pages {id : PageId} {s : ℕ} : (b.reposition id s).pages = b.pages := rfl

@[simp] theorem withTable_save : (b.withTable l).save index = (b.save index).withTable l := rfl

@[simp] theorem save_pages : (b.save index).pages = b.pages := rfl

theorem modifyPage_save (hid : (f (b.pages index)).id = (b.pages index).id)
    (hdata : (f (b.pages index)).data = (b.pages index).data) :
    (b.modifyPage index f).save index = (b.save index).modifyPage index f := by
  simp [save, modifyPage, hid, hdata]

theorem withTable_self (h : b.tableMutex = l) : b.withTable l = b := by
  rw [withTable, ← h]

end PageBuffer

/-! ### Rules for the commands that may be refused -/

/-- What `tableMutex` is while one thread holds it. -/
def held (exclusive : Bool) : Latch := if exclusive then ⟨true, 0⟩ else ⟨false, 1⟩

section Rules

variable {D α : Type} {R : BufRules} {b : PageBuffer D} {Q : α → PageBuffer D → Prop}

open PageBuffer

theorem runs_lockTable {e : Bool} {f : Unit → BufProg D α} (hb : b.tableMutex = {})
    (h : Runs (handler R) (f ()) (b.withTable (held e)) Q) :
    Runs (handler R) ((Prog.cmd (.lockTable e)).bind f) b Q := by
  refine runs_call (b := ()) ?_ h
  cases e <;> simp [handler, hb, Latch.lock, held, withTable]

theorem runs_unlockTable {e : Bool} {f : Unit → BufProg D α}
    (h : Runs (handler R) (f ()) (b.withTable {}) Q) :
    Runs (handler R) ((Prog.cmd (.unlockTable e)).bind f) (b.withTable (held e)) Q := by
  refine runs_call (b := ()) ?_ h
  cases e <;> rfl

theorem runs_check {c : Bool} {f : Unit → BufProg D α} (hc : c = true)
    (h : Runs (handler R) (f ()) b Q) : Runs (handler R) ((Prog.cmd (.check c)).bind f) b Q := by
  refine runs_call (b := ()) ?_ h
  simp [handler, hc]

theorem runs_lockPage {index : ℕ} {e : Bool} {l : Latch} {f : Unit → BufProg D α}
    (hl : (b.pages index).mutex.lock e = some l)
    (h : Runs (handler R) (f ()) (b.modifyPage index fun page => { page with mutex := l }) Q) :
    Runs (handler R) ((Prog.cmd (.lockPage index e)).bind f) b Q := by
  refine runs_call (b := ()) ?_ h
  simp [handler, hl]

/-- The mode is chosen on the data in the slot. -/
theorem runs_latchPage {index : ℕ} {mode : LatchMode D} {l : Latch} {f : Unit → BufProg D α}
    (hl : (b.pages index).mutex.lock (mode.exclusive (b.pages index).data) = some l)
    (h : Runs (handler R) (f ()) (b.modifyPage index fun page => { page with mutex := l }) Q) :
    Runs (handler R) ((latchPage index mode).bind f) b Q := by
  cases mode with
  | fixed e => exact runs_lockPage hl h
  | modeFunction g => exact runs_call rfl (runs_lockPage hl h)

theorem runs_findPage {l : Latch} {id : PageId} {f : Option ℕ → BufProg D α}
    (h : Runs (handler R) (f (b.pageTable.lookup id)) (b.withTable l) Q) :
    Runs (handler R) ((Prog.cmd (.findPage id)).bind f) (b.withTable l) Q := runs_call rfl h

theorem runs_hasSpace {l : Latch} {f : Bool → BufProg D α}
    (h : Runs (handler R) (f (decide (b.pageTable.entries.length < R.N))) (b.withTable l) Q) :
    Runs (handler R) ((Prog.cmd .hasSpace).bind f) (b.withTable l) Q := runs_call rfl h

theorem runs_takeFreeSlot {l : Latch} {id : PageId} {f : ℕ → BufProg D α} (hfree : b.freeSlots ≠ ∅)
    (hid : b.pageTable.lookup id = none)
    (h : Runs (handler R) (f (R.slot b.freeSlots))
      ((b.takeFreeSlot id (R.slot b.freeSlots)).withTable l) Q) :
    Runs (handler R) ((Prog.cmd (.takeFreeSlot id)).bind f) (b.withTable l) Q := by
  refine runs_call (b := R.slot b.freeSlots) ?_ h
  simp only [handler, withTable, hid, hfree, decide_false, Option.isSome_none, Bool.or_self,
    Bool.and_false, Bool.false_eq_true, if_false]
  rfl

theorem lock_free (e : Bool) : Latch.lock {} e = some (held e) := by
  cases e <;> rfl

/-- The data of a slot that has just been given to the page `id`. -/
def loaded (b : PageBuffer D) (id : PageId) (skipLoad : Bool) (index : ℕ) : D :=
  if skipLoad then (b.pages index).data else b.blocks id

theorem runs_loadAndLatch {id : PageId} {mode : LatchMode D} {skipLoad : Bool} {index : ℕ}
    {f : Unit → BufProg D α} (hm : (b.pages index).mutex = {}) {d : D}
    (hd : d = loaded b id skipLoad index)
    (h : Runs (handler R) (f ()) ((b.modifyPage index fun page =>
      { page with data := d, mutex := held (mode.exclusive d) }).withTable {}) Q) :
    Runs (handler R) ((loadAndLatch id mode skipLoad index).bind f) (b.withTable (held true)) Q := by
  subst hd
  cases skipLoad with
  | true =>
    simp only [loadAndLatch, Prog.bind_def, if_true, Prog.bind_assoc]
    refine runs_unlockTable ?_
    refine runs_latchPage (l := held (mode.exclusive (b.pages index).data)) ?_ h
    rw [withTable_pages, hm, lock_free]
  | false =>
    simp only [loadAndLatch, Prog.bind_def, Bool.false_eq_true, if_false, Prog.bind_assoc]
    refine runs_lockPage (l := held true) (by rw [withTable_pages, hm]; rfl) ?_
    rw [modifyPage_withTable]
    refine runs_unlockTable (runs_call rfl (runs_call rfl ?_))
    simp only [modifyPage_withTable, modifyPage_modifyPage]
    refine runs_latchPage (l := held (mode.exclusive (b.blocks id))) ?_ ?_
    · rw [withTable_pages, modifyPage_pages_self]
      exact lock_free _
    · rw [modifyPage_withTable, modifyPage_modifyPage]
      exact h

end Rules

/-! ### The paths -/

section Paths

open PageBuffer

variable {D : Type} {R : BufRules} {b : PageBuffer D} {id : PageId} {mode : LatchMode D}
  {skipLoad : Bool} {index : ℕ} {l : Latch}

/-- The first round only finds out that the table has to be locked exclusively. -/
theorem pinPage_retry {Q : ℕ → PageBuffer D → Prop} (hb : b.tableMutex = {})
    (hid : (b.pageTable.lookup id = none ∧ b.pageTable.entries.length < R.N) ∨
      ∃ s, b.pageTable.lookup id = some s ∧ (b.pages s).pins = 0)
    (h : Runs (handler R) (pinAttempt id mode skipLoad true) b fun r b' => ∃ s, r = .inr s ∧ Q s b') :
    Runs (handler R) (pinPage id mode skipLoad) b Q := by
  have hfirst : Runs (handler R) (pinAttempt id mode skipLoad false) b fun r b' =>
      r = .inl true ∧ b' = b := by
    simp only [pinAttempt, Prog.bind_def]
    refine runs_lockTable hb (runs_findPage ?_)
    rcases hid with ⟨hid, hspace⟩ | ⟨s, hid, hpins⟩
    · simp only [hid]
      refine runs_hasSpace ?_
      rw [if_pos (decide_eq_true hspace)]
      simp only [pinFree, Prog.bind_def, Prog.pure_def, if_true]
      exact runs_unlockTable (runs_ret ⟨rfl, withTable_self hb⟩)
    · simp only [hid, pinHit, Prog.bind_def, Prog.pure_def]
      refine runs_call rfl (runs_check (by simp) ?_)
      rw [if_pos (by simp [hpins])]
      refine runs_call rfl ?_
      rw [modifyPage_modifyPage, modifyPage_withTable]
      refine runs_unlockTable (runs_ret ⟨rfl, ?_⟩)
      rw [modifyPage_id rfl]
      exact withTable_self hb
  refine runs_unroll (runs_bind (hfirst.mono ?_))
  rintro _ _ ⟨rfl, rfl⟩
  refine runs_unroll (runs_bind (h.mono ?_))
  rintro _ b' ⟨s, rfl, hQ⟩
  exact runs_ret hQ

/-- The page is in memory without pins: it is found again with the table locked exclusively. -/
theorem pinPage_hit (hb : b.tableMutex = {}) (hid : b.pageTable.lookup id = some index)
    (hpins : (b.pages index).pins = 0)
    (hl : (b.pages index).mutex.lock (mode.exclusive (b.pages index).data) = some l) :
    Runs (handler R) (pinPage id mode skipLoad) b fun r b' => r = index ∧
      b' = (b.reposition id index).modifyPage index fun page => { page with pins := 1, mutex := l } := by
  refine pinPage_retry hb (.inr ⟨index, hid, hpins⟩) ?_
  simp only [pinAttempt, Prog.bind_def]
  refine runs_lockTable hb (runs_findPage ?_)
  simp only [hid, pinHit, Prog.bind_def, Prog.pure_def]
  refine runs_call rfl (runs_check (by simp) ?_)
  rw [if_neg (by simp), if_pos (by simp [hpins])]
  refine runs_call rfl ?_
  simp only [Prog.ret_bind, modifyPage_withTable, withTable_reposition, modifyPage_reposition]
  refine runs_unlockTable ?_
  rw [withTable_self (by exact hb)]
  refine runs_latchPage (l := l) (by simpa using hl) (runs_ret ⟨index, rfl, rfl, ?_⟩)
  rw [modifyPage_modifyPage]
  simp [modifyPage, hpins]

/-- There is a free slot. -/
theorem pinPage_free (hb : b.tableMutex = {}) (hid : b.pageTable.lookup id = none)
    (hspace : b.pageTable.entries.length < R.N) (hfree : b.freeSlots ≠ ∅)
    (hs : index = R.slot b.freeSlots) (hpins : (b.pages index).pins = 0)
    (hm : (b.pages index).mutex = {}) {d : D} (hd : d = loaded b id skipLoad index) :
    Runs (handler R) (pinPage id mode skipLoad) b fun r b' => r = index ∧
      b' = (b.takeFreeSlot id index).modifyPage index fun page =>
        { page with pins := 1, dirty := false, data := d, mutex := held (mode.exclusive d) } := by
  subst hs
  refine pinPage_retry hb (.inl ⟨hid, hspace⟩) ?_
  simp only [pinAttempt, Prog.bind_def]
  refine runs_lockTable hb (runs_findPage ?_)
  simp only [hid]
  refine runs_hasSpace ?_
  rw [if_pos (decide_eq_true hspace)]
  simp only [pinFree, Prog.bind_def, Prog.pure_def, Bool.true_eq_false, if_false]
  refine runs_takeFreeSlot hfree hid ?_
  have hpages : ((b.takeFreeSlot id (R.slot b.freeSlots)).pages (R.slot b.freeSlots)) =
      { b.pages (R.slot b.freeSlots) with id := id } := by simp [takeFreeSlot]
  refine runs_call rfl (runs_check (by simp [hpages, hpins]) (runs_call rfl (runs_call rfl ?_)))
  simp only [Prog.ret_bind, modifyPage_withTable, modifyPage_modifyPage]
  refine runs_loadAndLatch (d := d) (by simp [hpages, hm]) ?_ (runs_ret ⟨_, rfl, rfl, ?_⟩)
  · simp [hd, loaded, hpages]
    rfl
  · rw [modifyPage_modifyPage, withTable_self (by exact hb)]
    rfl

/-- The page that `findOne` finds unpinned in a queue. -/
def PageBuffer.findIn (b : PageBuffer D) (v : Victims) : Option PageId :=
  ((b.queue v).entryQueue.reverse.find? fun e => (b.pages e.value).pins = 0).map QueueNode.key

theorem runs_findUnpinned {α : Type} {Q : α → PageBuffer D → Prop} {v : Victims}
    {f : Option PageId → BufProg D α} (h : Runs (handler R) (f (b.findIn v)) (b.withTable l) Q) :
    Runs (handler R) ((findUnpinned v).bind f) (b.withTable l) Q := by
  have hscan : ∀ (es : List (QueueNode PageId ℕ)) (g : Option (QueueNode PageId ℕ) → BufProg D α),
      Runs (handler R) (g (es.find? fun e => (b.pages e.value).pins = 0)) (b.withTable l) Q →
      Runs (handler R) (Prog.bind (es.findM? fun e =>
        (Prog.cmd (.getPins e.value)).bind fun pins => Prog.ret (decide (pins = 0))) g)
        (b.withTable l) Q := by
    intro es
    induction es with
    | nil => exact fun g hg => hg
    | cons e es ih =>
      intro g hg
      rw [List.findM?, Prog.bind_def, Prog.bind_assoc, Prog.bind_assoc]
      refine runs_call rfl ?_
      rw [withTable_pages, Prog.ret_bind, Prog.ret_bind]
      by_cases hp : (b.pages e.value).pins = 0
      · rw [List.find?_cons_of_pos (by simpa using hp)] at hg
        simpa [hp] using hg
      · rw [List.find?_cons_of_neg (by simpa using hp)] at hg
        simpa [hp] using ih g hg
  simp only [findUnpinned, Queue.findOne, Prog.bind_def, Prog.pure_def, Prog.bind_assoc]
  refine runs_call rfl ?_
  simp only [Prog.ret_bind, withTable_queue]
  exact hscan _ _ h

/-- The buffer after the page in a slot has been written back, if it is dirty. -/
def PageBuffer.writtenBack (b : PageBuffer D) (index : ℕ) : PageBuffer D :=
  if (b.pages index).dirty then b.save index else b

theorem writtenBack_pages : (b.writtenBack index).pages = b.pages := by
  unfold writtenBack
  split <;> rfl

theorem writtenBack_pageTable : (b.writtenBack index).pageTable = b.pageTable := by
  unfold writtenBack
  split <;> rfl

theorem writtenBack_queue (v : Victims) : (b.writtenBack index).queue v = b.queue v := by
  unfold writtenBack
  split <;> cases v <;> rfl

theorem writtenBack_tableMutex : (b.writtenBack index).tableMutex = b.tableMutex := by
  unfold writtenBack
  split <;> rfl

theorem runs_writeBack {α : Type} {Q : α → PageBuffer D → Prop} {f : Unit → BufProg D α}
    (hb : b.tableMutex = {}) (hm : (b.pages index).mutex = {})
    (h : Runs (handler R) (f ()) (((b.writtenBack index).modifyPage index fun page =>
      { page with dirty := false }).withTable (held true)) Q) :
    Runs (handler R) ((writeBack false index).bind f) (b.withTable (held false)) Q := by
  simp only [writeBack, Prog.bind_def, Prog.bind_assoc]
  refine runs_call rfl ?_
  rw [Prog.ret_bind, withTable_pages]
  by_cases hd : (b.pages index).dirty = true
  · rw [writtenBack, if_pos hd] at h
    simp only [hd, if_true, Prog.bind_assoc]
    refine runs_call rfl ?_
    rw [Prog.ret_bind, modifyPage_withTable]
    have hl : ((b.modifyPage index fun page => { page with dirty := false }).pages index).mutex.lock
        false = some (held false) := by
      rw [modifyPage_pages_self, hm]
      rfl
    refine runs_lockPage hl ?_
    rw [modifyPage_withTable, modifyPage_modifyPage]
    refine runs_unlockTable (runs_call rfl (runs_call rfl ?_))
    rw [withTable_save, modifyPage_withTable, modifyPage_save rfl rfl, modifyPage_modifyPage,
      withTable_self (by exact hb)]
    refine runs_lockTable hb ?_
    rwa [modifyPage_congr (g := fun page => { page with dirty := false })]
    simp [hm, Latch.unlock, held]
  · rw [writtenBack, if_neg hd] at h
    rw [modifyPage_id (by rw [← Bool.eq_false_of_not_eq_true hd])] at h
    simp only [hd, if_false, if_true, Prog.bind_assoc, Bool.false_eq_true]
    refine runs_unlockTable (runs_lockTable rfl ?_)
    exact h

theorem runs_stillEvictable {α : Type} {Q : α → PageBuffer D → Prop} {f : Bool → BufProg D α}
    {v : Victims} {key : PageId} (hid : b.pageTable.lookup id = none)
    (hcont : (b.queue v).contains key = true) (hpins : (b.pages index).pins = 1)
    (hdirty : (b.pages index).dirty = false) (h : Runs (handler R) (f true) (b.withTable l) Q) :
    Runs (handler R) ((stillEvictable v key id index).bind f) (b.withTable l) Q := by
  simp only [stillEvictable, Prog.bind_def, Prog.pure_def, Prog.bind_assoc]
  refine runs_findPage ?_
  rw [hid, if_neg (by simp), Prog.bind_assoc]
  refine runs_call rfl ?_
  rw [Prog.ret_bind, withTable_queue, hcont, if_neg (by simp), Prog.bind_assoc]
  refine runs_call rfl ?_
  rw [Prog.ret_bind, withTable_pages, hpins, if_neg (by simp), Prog.bind_assoc]
  refine runs_call rfl ?_
  rw [Prog.ret_bind, withTable_pages, hdirty]
  exact h

/-- The round that evicts the page `key` of a queue. -/
theorem runs_pinEvict {v : Victims} {key : PageId} (hb : b.tableMutex = {})
    (hid : b.pageTable.lookup id = none) (hkey : (b.queue v).find key = some index)
    (hcont : (b.queue v).contains key = true) (hpins : (b.pages index).pins = 0)
    (hm : (b.pages index).mutex = {}) {d : D}
    (hd : d = loaded (b.writtenBack index) id skipLoad index) :
    Runs (handler R) (pinEvict id mode skipLoad false v key) (b.withTable (held false)) fun r b' =>
      r = .inr index ∧ b' = ((b.writtenBack index).replace v key id index).modifyPage index fun page =>
        { page with pins := 1, dirty := false, data := d, mutex := held (mode.exclusive d) } := by
  simp only [pinEvict, Prog.bind_def, Prog.pure_def]
  refine runs_call rfl ?_
  simp only [withTable_queue, hkey, Prog.ret_bind]
  refine runs_call rfl ?_
  rw [modifyPage_withTable]
  refine runs_writeBack hb (by simpa using hm) ?_
  have hback : ((b.modifyPage index fun page => { page with pins := page.pins + 1 }).writtenBack index) =
      (b.writtenBack index).modifyPage index fun page => { page with pins := page.pins + 1 } := by
    simp only [writtenBack, modifyPage_pages_self]
    split
    · rw [modifyPage_save rfl rfl]
    · rfl
  rw [hback, modifyPage_modifyPage]
  refine runs_stillEvictable (by rw [modifyPage_pageTable, writtenBack_pageTable, hid])
    (by rw [modifyPage_queue, writtenBack_queue, hcont])
    (by simp [writtenBack_pages, hpins]) (by simp) ?_
  rw [if_pos rfl]
  refine runs_call (b := ()) (v := (((b.writtenBack index).replace v key id index).modifyPage index
    fun page => { page with pins := page.pins + 1, dirty := false }).withTable (held true)) ?_ ?_
  · cases v <;> simp [handler, replace, modifyPage, setQueue, queue, withTable]
  refine runs_call rfl ?_
  rw [Prog.ret_bind, modifyPage_withTable, modifyPage_modifyPage]
  have hrep : ((b.writtenBack index).replace v key id index).pages index =
      { b.pages index with id := id } := by
    rw [← @writtenBack_pages _ b index]
    cases v <;> simp [replace, setQueue]
  have hrepm : ((b.writtenBack index).replace v key id index).tableMutex = {} := by
    rw [← hb, ← @writtenBack_tableMutex _ b index]
    cases v <;> rfl
  refine runs_loadAndLatch (d := d) (by simp [hrep, hm]) ?_ (runs_ret ⟨rfl, ?_⟩)
  · rw [hd]
    simp only [loaded, modifyPage_pages_self, hrep, writtenBack_pages, modifyPage_blocks,
      Function.comp]
    cases v <;> rfl
  · rw [modifyPage_modifyPage, withTable_self (by exact hrepm)]
    exact modifyPage_congr (by simp [hrep, hpins])

/-- Where `pinPage` finds its victim: in the FIFO queue or else in the LRU queue. -/
def PageBuffer.victim (b : PageBuffer D) : Option (Victims × PageId) :=
  match b.findIn .fifo with
  | some key => some (.fifo, key)
  | none => (b.findIn .lru).map fun key => (.lru, key)

/-- A page is evicted. -/
theorem pinPage_evict {v : Victims} {key : PageId} (hb : b.tableMutex = {})
    (hid : b.pageTable.lookup id = none) (hfull : ¬ b.pageTable.entries.length < R.N)
    (hv : b.victim = some (v, key)) (hkey : (b.queue v).find key = some index)
    (hcont : (b.queue v).contains key = true) (hpins : (b.pages index).pins = 0)
    (hm : (b.pages index).mutex = {}) {d : D}
    (hd : d = loaded (b.writtenBack index) id skipLoad index) :
    Runs (handler R) (pinPage id mode skipLoad) b fun r b' => r = index ∧
      b' = ((b.writtenBack index).replace v key id index).modifyPage index fun page =>
        { page with pins := 1, dirty := false, data := d, mutex := held (mode.exclusive d) } := by
  have hevict := @runs_pinEvict _ R _ _ mode _ _ _ _ hb hid hkey hcont hpins hm _ hd
  refine runs_unroll (runs_bind ?_)
  simp only [pinAttempt, Prog.bind_def]
  refine runs_lockTable hb (runs_findPage ?_)
  simp only [hid]
  refine runs_hasSpace ?_
  rw [if_neg (by simpa using hfull)]
  refine runs_findUnpinned ?_
  unfold victim at hv
  cases hfifo : b.findIn .fifo with
  | some key' =>
    obtain ⟨rfl, rfl⟩ := by simpa [hfifo] using hv
    refine hevict.mono ?_
    rintro _ b' ⟨rfl, rfl⟩
    exact runs_ret ⟨rfl, rfl⟩
  | none =>
    rw [hfifo] at hv
    obtain ⟨key', hlru, e⟩ := Option.map_eq_some_iff.mp hv
    obtain ⟨rfl, rfl⟩ := by simpa using e
    refine runs_findUnpinned ?_
    rw [hlru]
    refine hevict.mono ?_
    rintro _ b' ⟨rfl, rfl⟩
    exact runs_ret ⟨rfl, rfl⟩

/-- Every slot is taken and pinned: `pinPage` raises, with the table still locked. -/
theorem pinPage_full (hb : b.tableMutex = {}) (hid : b.pageTable.lookup id = none)
    (hfull : ¬ b.pageTable.entries.length < R.N) (hv : b.victim = none) :
    Raises (handler R) (pinPage id mode skipLoad) b .bufferFull fun b' =>
      b' = b.withTable (held false) := by
  have hscan : ∀ v, b.findIn v = none → Runs (handler R) (findUnpinned v) (b.withTable (held false))
      fun r b' => r = none ∧ b' = b.withTable (held false) := fun v hnone => by
    have h := runs_findUnpinned (R := R) (v := v) (l := held false) (f := .ret)
      (runs_ret (Q := fun r b' => r = none ∧ b' = b.withTable (held false)) ⟨hnone, rfl⟩)
    rwa [Prog.bind_ret] at h
  obtain ⟨hfifo, hlru⟩ : b.findIn .fifo = none ∧ b.findIn .lru = none := by
    unfold victim at hv
    split at hv
    · simp at hv
    · exact ⟨‹_›, by simpa using hv⟩
  refine raises_unroll (Raises.bind ?_)
  simp only [pinAttempt, Prog.bind_def]
  refine raises_call_ok (b := ()) (v := b.withTable (held false)) ?_ (raises_call_ok rfl ?_)
  · simp [handler, hb, Latch.lock, held, withTable]
  simp only [withTable_pageTable, hid, Prog.ret_bind]
  refine raises_call_ok rfl ?_
  rw [withTable_pageTable, Prog.ret_bind, if_neg (by simpa using hfull)]
  refine Runs.raises_bind ((hscan .fifo hfifo).mono ?_)
  rintro _ _ ⟨rfl, rfl⟩
  refine Runs.raises_bind ((hscan .lru hlru).mono ?_)
  rintro _ _ ⟨rfl, rfl⟩
  exact raises_call rfl rfl

end Paths

end BEpsilon.Buffer
