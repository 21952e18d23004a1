import BEpsilon.Buffer.Outcomes
import BEpsilon.Buffer.QueueLog

/-!
# BEpsilon.Buffer.Eviction — which page is evicted

A `History` is the page buffer of one thread with what a reader of its calls knows: when each page was
loaded, when it was last pinned from zero pins, and whether it was so at all since it was loaded.  The two
queues keep their pages in these orders, and the scan from the back finds the oldest page without pins.
-/

namespace BEpsilon.Buffer

open PageBuffer

variable {D : Type} {R : BufRules} {b b' : PageBuffer D} {id key : PageId} {mode : LatchMode D} {skipLoad : Bool}
  {index s now : ℕ} {v : Victims} {stamp : PageId → ℕ}

/-- The scan from the back finds the oldest page without pins. -/
theorem findIn_oldest (hq : Aged stamp now (b.queue v)) (h : b.findIn v = some key) :
    ∃ s, (b.queue v).Has key s ∧ (b.pages s).pins = 0 ∧ ∀ key' s', (b.queue v).Has key' s' →
      (b.pages s').pins = 0 → key' ≠ key → stamp key < stamp key' := by
  obtain ⟨e, he, rfl⟩ := Option.map_eq_some_iff.mp h
  obtain ⟨hmem, hpins, hold⟩ := hq.find?_oldest he
  refine ⟨e.value, ⟨e, hmem, rfl, rfl⟩, by simpa using hpins, ?_⟩
  rintro key' s' ⟨e', he', rfl, rfl⟩ hpins' hne
  exact hold e' he' (by simp [hpins']) hne

/-! ### Histories -/

/-- The page buffer of one thread, and what its calls tell about the pages in memory. -/
structure History (D : Type) where
  buf : PageBuffer D
  /-- pins so far -/
  now : ℕ := 0
  /-- when a page was loaded -/
  entered : PageId → ℕ := fun _ => 0
  /-- when a page was last found in memory without pins -/
  repinned : PageId → ℕ := fun _ => 0
  /-- has it never been pinned from zero pins since it was loaded? -/
  fresh : PageId → Bool := fun _ => false
  /-- calls that raised -/
  raised : ℕ := 0

namespace History

/-- The page `id` has been pinned. -/
def pinned (h : History D) (id : PageId) (b' : PageBuffer D) : History D :=
  match h.buf.pageTable.lookup id with
  | none =>
    { h with buf := b', now := h.now + 1, entered := Function.update h.entered id h.now
             fresh := Function.update h.fresh id true }
  | some index =>
    if (h.buf.pages index).pins = 0 then
      { h with buf := b', now := h.now + 1, repinned := Function.update h.repinned id h.now
               fresh := Function.update h.fresh id false }
    else { h with buf := b', now := h.now + 1 }

/-- The calls of one thread that end; the data of a pinned page may change. -/
inductive Step (R : BufRules) : History D → History D → Prop
  | createPage {h : History D} {id : PageId} {b' : PageBuffer D}
      (hr : Returns (handler R) (Prog.cmd .createBlock) h.buf id b') : Step R h { h with buf := b' }
  | pinPage {h : History D} {id : PageId} {mode : LatchMode D} {skipLoad : Bool} {s : ℕ} {b' : PageBuffer D}
      (hr : Returns (handler R) (Buffer.pinPage id mode skipLoad) h.buf s b') : Step R h (h.pinned id b')
  | bufferFull {h : History D} {id : PageId} {mode : LatchMode D} {skipLoad : Bool} {b' : PageBuffer D}
      (hr : Raises (handler R) (Buffer.pinPage id mode skipLoad) h.buf .bufferFull fun v => v = b') :
      Step R h { h with buf := b', raised := h.raised + 1 }
  | unpinPage {h : History D} {s : ℕ} {dirty : Bool} {b' : PageBuffer D} (hpins : 1 ≤ (h.buf.pages s).pins)
      (hr : Returns (handler R) (Buffer.unpinPage s dirty) h.buf () b') : Step R h { h with buf := b' }
  | write {h : History D} {s : ℕ} {d : D} {b' : PageBuffer D} (hpins : 1 ≤ (h.buf.pages s).pins)
      (hr : Returns (handler R) (Prog.cmd (.writePage s d)) h.buf () b') : Step R h { h with buf := b' }

/-- The histories of a page buffer on a directory in any state. -/
inductive Reach (R : BufRules) : History D → Prop
  | new (blocks : PageId → D) (created : ℕ) (zero : D) : Reach R { buf := .new R blocks created zero }
  | step {h h' : History D} (hr : Reach R h) (hs : Step R h h') : Reach R h'

/-- The queues hold the pages of their kind in the order of their stamps, and the table is locked shared by
the calls that raised. -/
structure Tracks (R : BufRules) (h : History D) : Prop where
  inv : Inv R (h.buf.withTable {})
  mutex : h.buf.tableMutex = ⟨false, h.raised⟩
  fifo : Aged h.entered h.now h.buf.fifoQueue
  lru : Aged h.repinned h.now h.buf.lruQueue
  fifo_fresh : ∀ id s, h.buf.fifoQueue.Has id s → h.fresh id = true
  lru_fresh : ∀ id s, h.buf.lruQueue.Has id s → h.fresh id = false

theorem tracks_new (R : BufRules) (blocks : PageId → D) (created : ℕ) (zero : D) :
    Tracks R { buf := .new R blocks created zero } where
  inv := inv_new R blocks created zero
  mutex := rfl
  fifo := ⟨List.Pairwise.nil, by simp [PageBuffer.new]⟩
  lru := ⟨List.Pairwise.nil, by simp [PageBuffer.new]⟩
  fifo_fresh id s h := by simp [PageBuffer.new, Queue.Has] at h
  lru_fresh id s h := by simp [PageBuffer.new, Queue.Has] at h

variable {h h' : History D}

/-- A call that moves no page. -/
theorem Tracks.same (ht : Tracks R h) {n now' : ℕ} (hinv : Inv R (b'.withTable {}))
    (hmutex : b'.tableMutex = ⟨false, n⟩) (hfifo : b'.fifoQueue = h.buf.fifoQueue)
    (hlru : b'.lruQueue = h.buf.lruQueue) (hnow : h.now ≤ now') :
    Tracks R { h with buf := b', now := now', raised := n } := by
  refine ⟨hinv, hmutex, ?_, ?_, ?_, ?_⟩
  · rw [hfifo]
    exact ht.fifo.congr (fun _ _ => rfl) hnow
  · rw [hlru]
    exact ht.lru.congr (fun _ _ => rfl) hnow
  · rw [hfifo]
    exact ht.fifo_fresh
  · rw [hlru]
    exact ht.lru_fresh

/-- A page that is found without pins leaves the FIFO queue. -/
theorem Tracks.hit (ht : Tracks R h) (hid : h.buf.pageTable.lookup id = some index)
    (hinv : Inv R (b'.withTable {})) (hmutex : b'.tableMutex = ⟨false, h.raised⟩)
    (hfifo : b'.fifoQueue = (repositioned h.buf.fifoQueue h.buf.lruQueue id index).1)
    (hlru : b'.lruQueue = (repositioned h.buf.fifoQueue h.buf.lruQueue id index).2) :
    Tracks R { h with buf := b', now := h.now + 1, repinned := Function.update h.repinned id h.now
                      fresh := Function.update h.fresh id false } := by
  have hok₁ : h.buf.fifoQueue.Ok := ht.inv.fifo_ok
  have hok₂ : h.buf.lruQueue.Ok := ht.inv.lru_ok
  have hqueued : h.buf.fifoQueue.Has id index ∨ h.buf.lruQueue.Has id index := (ht.inv.queued id index).mp hid
  unfold repositioned at hfifo hlru
  by_cases hc : h.buf.fifoQueue.contains id = true
  · rw [if_pos hc] at hfifo hlru
    obtain ⟨s, hs⟩ := hok₁.contains_iff.mp hc
    have hnot : ∀ s', ¬ h.buf.lruQueue.Has id s' := fun s' => ht.inv.apart id s s' hs
    refine ⟨hinv, hmutex, ?_, ?_, ?_, ?_⟩
    · rw [hfifo]
      exact ht.fifo.remove.congr (fun _ _ => rfl) (Nat.le_succ _)
    · rw [hlru]
      exact ht.lru.insert hnot index
    · rw [hfifo]
      intro id' s' hs'
      obtain ⟨hne, hs'⟩ := hok₁.has_remove.mp hs'
      dsimp only
      rw [Function.update_of_ne hne]
      exact ht.fifo_fresh id' s' hs'
    · rw [hlru]
      intro id' s' hs'
      rcases Queue.has_insert.mp hs' with ⟨rfl, -⟩ | hl
      · exact Function.update_self _ _ _
      · have hne : id' ≠ id := by
          rintro rfl
          exact hnot s' hl
        dsimp only
        rw [Function.update_of_ne hne]
        exact ht.lru_fresh id' s' hl
  · have hnot : ∀ s', ¬ h.buf.fifoQueue.Has id s' := fun s' hs' => hc (hok₁.contains_iff.mpr ⟨s', hs'⟩)
    have hl := hqueued.resolve_left (hnot index)
    rw [if_neg hc, if_pos (hok₂.contains_iff.mpr ⟨index, hl⟩)] at hfifo hlru
    refine ⟨hinv, hmutex, ?_, ?_, ?_, ?_⟩
    · rw [hfifo]
      exact ht.fifo.congr (fun _ _ => rfl) (Nat.le_succ _)
    · rw [hlru]
      exact ht.lru.toFront hok₂ hl
    · rw [hfifo]
      intro id' s' hs'
      dsimp only
      rw [Function.update_of_ne]
      · exact ht.fifo_fresh id' s' hs'
      · rintro rfl
        exact hnot s' hs'
    · rw [hlru]
      intro id' s' hs'
      have hfresh := ht.lru_fresh id' s' (hok₂.has_toFront.mp hs')
      by_cases e : id' = id
      · subst e
        exact Function.update_self _ _ _
      · dsimp only
        rw [Function.update_of_ne e]
        exact hfresh

/-- A page that is loaded enters the FIFO queue, and the victim leaves its queue. -/
theorem Tracks.load (ht : Tracks R h) (hid : h.buf.pageTable.lookup id = none)
    (hinv : Inv R (b'.withTable {})) (hmutex : b'.tableMutex = ⟨false, h.raised⟩) {q : Queue PageId ℕ}
    (hq : q = h.buf.fifoQueue ∨ ∃ key, q = h.buf.fifoQueue.remove key)
    (hfifo : b'.fifoQueue = q.insert id index)
    (hlru : b'.lruQueue = h.buf.lruQueue ∨ ∃ key, b'.lruQueue = h.buf.lruQueue.remove key) :
    Tracks R { h with buf := b', now := h.now + 1, entered := Function.update h.entered id h.now
                      fresh := Function.update h.fresh id true } := by
  have hok₁ : h.buf.fifoQueue.Ok := ht.inv.fifo_ok
  have hok₂ : h.buf.lruQueue.Ok := ht.inv.lru_ok
  have hqhas : ∀ id' s, q.Has id' s → h.buf.fifoQueue.Has id' s := by
    intro id' s hs
    rcases hq with rfl | ⟨key, rfl⟩
    · exact hs
    · exact (hok₁.has_remove.mp hs).2
  have hlhas : ∀ id' s, b'.lruQueue.Has id' s → h.buf.lruQueue.Has id' s := by
    intro id' s hs
    rcases hlru with e | ⟨key, e⟩
    · rwa [e] at hs
    · rw [e] at hs
      exact (hok₂.has_remove.mp hs).2
  have hnot := ht.inv.not_queued hid
  have hqaged : Aged h.entered h.now q := by
    rcases hq with rfl | ⟨key, rfl⟩
    · exact ht.fifo
    · exact ht.fifo.remove
  have hlaged : Aged h.repinned h.now b'.lruQueue := by
    rcases hlru with e | ⟨key, e⟩
    · rw [e]
      exact ht.lru
    · rw [e]
      exact ht.lru.remove
  refine ⟨hinv, hmutex, ?_, hlaged.congr (fun _ _ => rfl) (Nat.le_succ _), ?_, ?_⟩
  · rw [hfifo]
    exact hqaged.insert (fun s hs => (hnot s).1 (hqhas id s hs)) index
  · rw [hfifo]
    intro id' s' hs'
    rcases Queue.has_insert.mp hs' with ⟨rfl, -⟩ | hq
    · exact Function.update_self _ _ _
    · have hne : id' ≠ id := by
        rintro rfl
        exact (hnot s').1 (hqhas _ _ hq)
      dsimp only
      rw [Function.update_of_ne hne]
      exact ht.fifo_fresh id' s' (hqhas _ _ hq)
  · intro id' s' hs'
    have hne : id' ≠ id := by
      rintro rfl
      exact (hnot s').2 (hlhas _ _ hs')
    dsimp only
    rw [Function.update_of_ne hne]
    exact ht.lru_fresh id' s' (hlhas _ _ hs')

/-- Nothing but a page that is pinned already can be pinned while the table is locked by a call that raised. -/
theorem Tracks.blocked (ht : Tracks R h) (hraised : h.raised ≠ 0) (hpins : h.buf.pinsOf id = 0)
    (hroom : h.buf.pageTable.lookup id = none → ∃ s < R.N, (h.buf.pages s).pins = 0) :
    Raises (handler R) (Buffer.pinPage id mode skipLoad) h.buf .blocked fun _ => True := by
  cases hid : h.buf.pageTable.lookup id with
  | some index =>
    rw [pinsOf_some hid] at hpins
    exact pinPage_blocked ht.mutex hraised (.inr ⟨index, hid, hpins⟩)
  | none =>
    by_cases hspace : h.buf.pageTable.entries.length < R.N
    · exact pinPage_blocked ht.mutex hraised (.inl ⟨hid, hspace⟩)
    · obtain ⟨s, hs, hp⟩ := hroom hid
      obtain ⟨key₀, hkey₀⟩ := ht.inv.slot_used hspace hs
      cases hv : h.buf.victim with
      | none => exact absurd hp (ht.inv.all_pinned hv hkey₀)
      | some w =>
        obtain ⟨v, key⟩ := w
        obtain ⟨index, hkey, hpins⟩ := findIn_eq_some (victim_eq_some hv)
        have hok : (h.buf.queue v).Ok := by
          have hok := ht.inv.queue_ok v
          rwa [withTable_queue] at hok
        exact pinPage_evict_blocked ht.mutex hraised hid hspace hv (hok.find_eq_some.mpr hkey)
          ((ht.inv.latch index).idle hpins)

/-- Every page in memory is pinned, and there is no other slot. -/
theorem Tracks.full (ht : Tracks R h) (hid : h.buf.pageTable.lookup id = none)
    (hpinned : ∀ s < R.N, (h.buf.pages s).pins ≠ 0) :
    Raises (handler R) (Buffer.pinPage id mode skipLoad) h.buf .bufferFull fun b' =>
      b' = h.buf.withTable ⟨false, h.raised + 1⟩ := by
  have hspace : ¬ h.buf.pageTable.entries.length < R.N := by
    intro hlt
    have hcount : h.buf.pageTable.entries.length + h.buf.freeSlots.card = R.N := ht.inv.count
    obtain ⟨s, hs⟩ := Finset.card_pos.mp (show 0 < h.buf.freeSlots.card by omega)
    exact hpinned s ((ht.inv.free s).mp hs).1 (ht.inv.free_pins s hs)
  refine pinPage_full_shared ht.mutex hid hspace ?_
  cases hv : h.buf.victim with
  | none => rfl
  | some w =>
    obtain ⟨v, key⟩ := w
    obtain ⟨index, hkey, hpins⟩ := findIn_eq_some (victim_eq_some hv)
    have hlook : h.buf.pageTable.lookup key = some index := by
      refine ht.inv.lookup_of_has (v := v) ?_
      rwa [withTable_queue]
    exact absurd hpins (hpinned index (ht.inv.slot_lt _ _ hlook))

theorem Tracks.inv_of_unlocked (ht : Tracks R h) (hraised : h.raised = 0) : Inv R h.buf := by
  have hinv := ht.inv
  have hmutex := ht.mutex
  rw [hraised] at hmutex
  rwa [withTable_self hmutex] at hinv

/-- The evicting call: which page it takes the slot from, and what becomes of the buffer. -/
theorem Tracks.evict (ht : Tracks R h) (mode : LatchMode D) (skipLoad : Bool) (hraised : h.raised = 0)
    (hid : h.buf.pageTable.lookup id = none)
    (hfull : ¬ h.buf.pageTable.entries.length < R.N) (hroom : ∃ s < R.N, (h.buf.pages s).pins = 0) :
    ∃ v key, h.buf.victim = some (v, key) ∧ Runs (handler R) (Buffer.pinPage id mode skipLoad) h.buf
      fun s b' => PinPost R h.buf b' id mode skipLoad s ∧ (h.buf.queue v).Has key s ∧
        ∃ f, b' = ((h.buf.writtenBack s).replace v key id s).modifyPage s f := by
  have hI := ht.inv_of_unlocked hraised
  obtain ⟨s, hs, hp⟩ := hroom
  obtain ⟨key₀, hkey₀⟩ := hI.slot_used hfull hs
  cases hv : h.buf.victim with
  | none => exact absurd hp (hI.all_pinned hv hkey₀)
  | some w =>
    obtain ⟨v, key⟩ := w
    obtain ⟨index, hkey, hpins⟩ := findIn_eq_some (victim_eq_some hv)
    have hq := hI.queue_ok v
    refine ⟨v, key, rfl, ?_⟩
    refine (pinPage_evict hI.unlocked hid hfull hv (hq.find_eq_some.mpr hkey)
      (hq.contains_iff.mpr ⟨_, hkey⟩) hpins ((hI.latch _).idle hpins) rfl).mono ?_
    rintro _ b' ⟨rfl, rfl⟩
    exact ⟨pinPost_evict hI hid hkey hpins rfl, hkey, _, rfl⟩

theorem Tracks.pin (ht : Tracks R h) (hr : Returns (handler R) (Buffer.pinPage id mode skipLoad) h.buf s b') :
    Tracks R (h.pinned id b') := by
  have hblocked : h.raised ≠ 0 → h.buf.pinsOf id = 0 →
      ¬ (h.buf.pageTable.lookup id = none → ∃ s < R.N, (h.buf.pages s).pins = 0) :=
    fun hraised hpins hroom => hr.not_raises (ht.blocked hraised hpins hroom)
  have hunlocked : ∀ {b' : PageBuffer D}, h.raised = 0 → Inv R b' → Inv R (b'.withTable {}) ∧
      b'.tableMutex = ⟨false, h.raised⟩ := by
    intro b' hraised hinv
    rw [withTable_self hinv.unlocked, hraised]
    exact ⟨hinv, hinv.unlocked⟩
  unfold pinned
  cases hid : h.buf.pageTable.lookup id with
  | some index =>
    dsimp only
    split_ifs with hpins
    · have hraised : h.raised = 0 := by
        by_contra hraised
        refine hblocked hraised ?_ fun hnone => ?_
        · rwa [pinsOf_some hid]
        · rw [hid] at hnone
          cases hnone
      have hI := ht.inv_of_unlocked hraised
      have hlock := lock_free (mode.exclusive (h.buf.pages index).data)
      rw [← (hI.latch index).idle hpins] at hlock
      obtain ⟨rfl, rfl⟩ := hr.of_runs (pinPage_hit hI.unlocked hid hpins hlock)
      have hP : PinPost R h.buf _ id mode skipLoad s := pinPost_hit hI hid hpins
      obtain ⟨hinv, hmutex⟩ := hunlocked hraised hP.inv
      exact ht.hit hid hinv hmutex rfl rfl
    · cases hl : (h.buf.pages index).mutex.lock (mode.exclusive (h.buf.pages index).data) with
      | none => exact absurd (pinPage_pinned_blocked ht.mutex hid hpins hl) hr.not_raises
      | some l =>
        obtain ⟨rfl, rfl⟩ := hr.of_runs (pinPage_pinned ht.mutex hid hpins hl)
        exact ht.same (ht.inv.oneMore hid hpins hl).inv ht.mutex rfl rfl (Nat.le_succ _)
  | none =>
    have hroom : ∃ s < R.N, (h.buf.pages s).pins = 0 := by
      by_contra hno
      exact hr.not_raises (ht.full hid fun s hs hp => hno ⟨s, hs, hp⟩)
    have hraised : h.raised = 0 := by
      by_contra hraised
      exact hblocked hraised (pinsOf_none hid) fun _ => hroom
    have hI := ht.inv_of_unlocked hraised
    by_cases hspace : h.buf.pageTable.entries.length < R.N
    · have hne : h.buf.freeSlots.Nonempty := by
        have := hI.count
        exact Finset.card_pos.mp (by omega)
      have hmem := R.slot_mem _ hne
      have hpins := hI.free_pins _ hmem
      obtain ⟨rfl, hb'⟩ := hr.of_runs (pinPage_free hI.unlocked hid hspace hne.ne_empty rfl hpins
        ((hI.latch _).idle hpins) rfl)
      subst hb'
      have hP : PinPost R h.buf _ id mode skipLoad (R.slot h.buf.freeSlots) := pinPost_take hI hid hmem rfl
      obtain ⟨hinv, hmutex⟩ := hunlocked hraised hP.inv
      exact ht.load hid hinv hmutex (.inl rfl) rfl (.inl rfl)
    · obtain ⟨v, key, -, hrun⟩ := ht.evict mode skipLoad hraised hid hspace hroom
      obtain ⟨hP, hkey, f, rfl⟩ := hr.of_runs hrun
      obtain ⟨hinv, hmutex⟩ := hunlocked hraised hP.inv
      have hfifo : (h.buf.writtenBack s).fifoQueue = h.buf.fifoQueue := writtenBack_queue .fifo
      have hlru : (h.buf.writtenBack s).lruQueue = h.buf.lruQueue := writtenBack_queue .lru
      cases v with
      | fifo => exact ht.load hid hinv hmutex (.inr ⟨key, congrArg (·.remove key) hfifo⟩) rfl (.inl hlru)
      | lru => exact ht.load hid hinv hmutex (.inl hfifo) rfl (.inr ⟨key, congrArg (·.remove key) hlru⟩)

/-- A call raises only when the page is absent and every slot is pinned. -/
theorem Tracks.of_bufferFull (ht : Tracks R h) {P : PageBuffer D → Prop}
    (hr : Raises (handler R) (Buffer.pinPage id mode skipLoad) h.buf .bufferFull P) :
    h.buf.pageTable.lookup id = none ∧ ∀ s < R.N, (h.buf.pages s).pins ≠ 0 := by
  have hnotBlocked : ¬ Raises (handler R) (Buffer.pinPage id mode skipLoad) h.buf .blocked fun _ => True := by
    intro hblocked
    obtain ⟨e, -⟩ := hr.det hblocked
    cases e
  have hroom : ¬ (h.buf.pinsOf id = 0 ∧ (h.buf.pageTable.lookup id = none → ∃ s < R.N, (h.buf.pages s).pins = 0)) := by
    rintro ⟨hpins, hroom⟩
    by_cases hraised : h.raised = 0
    · refine hr.not_runs (pinPage_returns (ht.inv_of_unlocked hraised) (unpinned_iff.mpr hpins) ?_)
      by_cases hid : h.buf.pageTable.lookup id = none
      · exact .inr (hroom hid)
      · exact .inl hid
    · exact hnotBlocked (ht.blocked hraised hpins hroom)
  cases hid : h.buf.pageTable.lookup id with
  | some index =>
    exfalso
    by_cases hpins : (h.buf.pages index).pins = 0
    · refine hroom ⟨by rw [pinsOf_some hid, hpins], fun hnone => ?_⟩
      rw [hid] at hnone
      cases hnone
    · cases hl : (h.buf.pages index).mutex.lock (mode.exclusive (h.buf.pages index).data) with
      | none => exact hnotBlocked (pinPage_pinned_blocked ht.mutex hid hpins hl)
      | some l => exact hr.not_runs (pinPage_pinned ht.mutex hid hpins hl)
  | none =>
    refine ⟨rfl, fun s hs hp => hroom ⟨pinsOf_none hid, fun _ => ⟨s, hs, hp⟩⟩⟩

/-- Every call keeps track. -/
theorem Tracks.step (ht : Tracks R h) (hs : Step R h h') : Tracks R h' := by
  cases hs with
  | createPage hr =>
    obtain rfl := hr.of_runs (Q := fun _ b' => b' = { h.buf with created := h.buf.created + 1 })
      (runs_call rfl (runs_ret rfl))
    exact ht.same ht.inv.createBlock ht.mutex rfl rfl (Nat.le_refl _)
  | pinPage hr => exact ht.pin hr
  | bufferFull hr =>
    obtain ⟨hid, hpinned⟩ := ht.of_bufferFull hr
    obtain ⟨-, _, rfl, rfl⟩ := hr.det (ht.full hid hpinned)
    exact ht.same ht.inv rfl rfl rfl (Nat.le_refl _)
  | unpinPage hpins hr =>
    obtain rfl := hr.of_runs (unpinPage_returns hpins)
    exact ht.same (ht.inv.unpinned hpins _) ht.mutex rfl rfl (Nat.le_refl _)
  | @write s d b' hpins hr =>
    obtain rfl := hr.of_runs (Q := fun _ b' => b' = h.buf.modifyPage s fun page => { page with data := d })
      (runs_call rfl (runs_ret rfl))
    refine ht.same ?_ ht.mutex rfl rfl (Nat.le_refl _)
    exact ht.inv.modifyPage (f := fun page => { page with data := d }) rfl (ht.inv.latch s) (ht.inv.free_pins s)

theorem Reach.tracks (hr : Reach R h) : Tracks R h := by
  induction hr with
  | new blocks created zero => exact tracks_new R blocks created zero
  | step _ hs ih => exact ih.step hs

end History

/-! ### The 2Q rule -/

/-- The page is in memory and has no pins. -/
def PageBuffer.Idle (b : PageBuffer D) (key : PageId) : Prop :=
  ∃ s, b.pageTable.lookup key = some s ∧ (b.pages s).pins = 0

/-- The page that has to go: of the pages without pins the one that was loaded first among those that were
not pinned again since, or, when there is none of these, the one whose last pin from zero is oldest. -/
def History.Victim (h : History D) (key : PageId) : Prop :=
  h.buf.Idle key ∧
    (h.fresh key = true ∧
        (∀ key', key' ≠ key → h.buf.Idle key' → h.fresh key' = true → h.entered key < h.entered key') ∨
      h.fresh key = false ∧ (∀ key', h.buf.Idle key' → h.fresh key' = false) ∧
        ∀ key', key' ≠ key → h.buf.Idle key' → h.repinned key < h.repinned key')

/-- The page `id` has got the slot `s` of the page `key`, and all other pages keep their slots, their
contents and their pins. -/
structure Evicted (b b' : PageBuffer D) (key id : PageId) (s : ℕ) : Prop where
  victim : b.pageTable.lookup key = some s ∧ (b.pages s).pins = 0
  slot : b'.pageTable.lookup id = some s
  gone : b'.pageTable.lookup key = none
  others : ∀ id', id' ≠ id → id' ≠ key → b'.pageTable.lookup id' = b.pageTable.lookup id'
  pages : ∀ s', s' ≠ s → b'.pages s' = b.pages s'

/-- The queues hold the pages that were, or were not, pinned again since they were loaded, and `pinPage`
raises where every slot is pinned and evicts the victim where not. -/
structure TwoQ (R : BufRules) (h : History D) (id : PageId) (mode : LatchMode D) (skipLoad : Bool) : Prop where
  fifo : ∀ key s, h.buf.fifoQueue.Has key s ↔ h.buf.pageTable.lookup key = some s ∧ h.fresh key = true
  lru : ∀ key s, h.buf.lruQueue.Has key s ↔ h.buf.pageTable.lookup key = some s ∧ h.fresh key = false
  raises : Raises (handler R) (pinPage id mode skipLoad) h.buf .bufferFull (fun _ => True) ↔
    ∀ s < R.N, (h.buf.pages s).pins ≠ 0
  evicts : (∃ s < R.N, (h.buf.pages s).pins = 0) → ∃ key, h.Victim key ∧
    Runs (handler R) (pinPage id mode skipLoad) h.buf fun s b' => Evicted h.buf b' key id s

namespace History

variable {h : History D}

theorem Tracks.fifo_iff (ht : Tracks R h) (key : PageId) (s : ℕ) : h.buf.fifoQueue.Has key s ↔
    h.buf.pageTable.lookup key = some s ∧ h.fresh key = true := by
  refine ⟨fun hs => ⟨(ht.inv.queued key s).mpr (.inl hs), ht.fifo_fresh key s hs⟩, ?_⟩
  rintro ⟨hid, hfresh⟩
  refine ((ht.inv.queued key s).mp hid).resolve_right fun hs => ?_
  rw [ht.lru_fresh key s hs] at hfresh
  cases hfresh

theorem Tracks.lru_iff (ht : Tracks R h) (key : PageId) (s : ℕ) : h.buf.lruQueue.Has key s ↔
    h.buf.pageTable.lookup key = some s ∧ h.fresh key = false := by
  refine ⟨fun hs => ⟨(ht.inv.queued key s).mpr (.inr hs), ht.lru_fresh key s hs⟩, ?_⟩
  rintro ⟨hid, hfresh⟩
  refine ((ht.inv.queued key s).mp hid).resolve_left fun hs => ?_
  rw [ht.fifo_fresh key s hs] at hfresh
  cases hfresh

/-- What the scan of the queues finds is the page that has to go. -/
theorem Tracks.victim (ht : Tracks R h) (hv : h.buf.victim = some (v, key)) : h.Victim key := by
  unfold PageBuffer.victim at hv
  cases hfifo : h.buf.findIn .fifo with
  | some key' =>
    obtain ⟨rfl, rfl⟩ := by simpa [hfifo] using hv
    obtain ⟨s, hs, hpins, hold⟩ := findIn_oldest (v := .fifo) ht.fifo hfifo
    obtain ⟨hid, hfresh⟩ := (ht.fifo_iff _ s).mp hs
    refine ⟨⟨s, hid, hpins⟩, .inl ⟨hfresh, ?_⟩⟩
    rintro key' hne ⟨s', hid', hpins'⟩ hfresh'
    exact hold key' s' ((ht.fifo_iff key' s').mpr ⟨hid', hfresh'⟩) hpins' hne
  | none =>
    rw [hfifo] at hv
    obtain ⟨key', hlru, e⟩ := Option.map_eq_some_iff.mp hv
    obtain ⟨rfl, rfl⟩ := by simpa using e
    obtain ⟨s, hs, hpins, hold⟩ := findIn_oldest (v := .lru) ht.lru hlru
    obtain ⟨hid, hfresh⟩ := (ht.lru_iff _ s).mp hs
    have hnone : ∀ key', h.buf.Idle key' → h.fresh key' = false := by
      rintro key' ⟨s', hid', hpins'⟩
      by_contra hfresh'
      have hhas := (ht.fifo_iff key' s').mpr ⟨hid', by simpa using hfresh'⟩
      exact findIn_eq_none (v := .fifo) hfifo hhas hpins'
    refine ⟨⟨s, hid, hpins⟩, .inr ⟨hfresh, hnone, ?_⟩⟩
    rintro key' hne ⟨s', hid', hpins'⟩
    exact hold key' s' ((ht.lru_iff key' s').mpr ⟨hid', hnone key' ⟨s', hid', hpins'⟩⟩) hpins' hne

end History

/-- Eviction takes one slot and gives it to the page. -/
theorem evicted_replace {f : Page D → Page D} (hid : b.pageTable.lookup id = none)
    (hkey : b.pageTable.lookup key = some s) (hpins : (b.pages s).pins = 0) :
    Evicted b (((b.writtenBack s).replace v key id s).modifyPage s f) key id s := by
  have hne : key ≠ id := by
    rintro rfl
    rw [hid] at hkey
    cases hkey
  have htable : (((b.writtenBack s).replace v key id s).modifyPage s f).pageTable =
      (b.pageTable.erase key).insert id s := by
    rw [← @writtenBack_pageTable _ b s]
    cases v <;> rfl
  refine ⟨⟨hkey, hpins⟩, ?_, ?_, ?_, ?_⟩
  · rw [htable, AList.lookup_insert]
  · rw [htable, AList.lookup_insert_ne hne, AList.lookup_erase]
  · intro id' h₁ h₂
    rw [htable, AList.lookup_insert_ne h₁, AList.lookup_erase_ne h₂]
  · intro s' hs'
    rw [modifyPage_pages_ne hs', ← @writtenBack_pages _ b s]
    cases v <;> simp [replace, setQueue, modifyPage, hs']

/-- After any calls, a `pinPage` of a page that is not in memory when all slots are used follows the 2Q rule
exactly when no earlier call has raised or every slot is pinned: a call that raises leaves the table locked,
and to evict a page it has to be locked exclusively. -/
theorem pinPage_twoQ_iff (R : BufRules) (h : History D) (hr : h.Reach R) (id : PageId) (mode : LatchMode D)
    (skipLoad : Bool) (hid : h.buf.pageTable.lookup id = none) (hfull : h.buf.pageTable.entries.length = R.N) :
    TwoQ R h id mode skipLoad ↔ h.raised = 0 ∨ ∀ s < R.N, (h.buf.pages s).pins ≠ 0 := by
  have ht := hr.tracks
  constructor
  · intro hrule
    by_contra hno
    obtain ⟨hraised, hroom⟩ := not_or.mp hno
    obtain ⟨s, hs, hp⟩ : ∃ s < R.N, (h.buf.pages s).pins = 0 := by
      by_contra hall
      exact hroom fun s hs hp => hall ⟨s, hs, hp⟩
    obtain ⟨key, -, hrun⟩ := hrule.evicts ⟨s, hs, hp⟩
    exact (ht.blocked hraised (pinsOf_none hid) fun _ => ⟨s, hs, hp⟩).not_runs hrun
  · intro hcond
    refine ⟨ht.fifo_iff, ht.lru_iff, ⟨fun hraise => (ht.of_bufferFull hraise).2, fun hpinned => ?_⟩, ?_⟩
    · have hraise : Raises (handler R) (pinPage id mode skipLoad) h.buf .bufferFull fun b' =>
          b' = h.buf.withTable ⟨false, h.raised + 1⟩ := ht.full hid hpinned
      obtain ⟨n, b', hn, -⟩ := hraise
      exact ⟨n, b', hn, trivial⟩
    · rintro ⟨s, hs, hp⟩
      have hraised : h.raised = 0 := hcond.resolve_right fun hpinned => hpinned s hs hp
      have hI := ht.inv_of_unlocked hraised
      obtain ⟨v, key, hv, hrun⟩ := ht.evict mode skipLoad hraised hid (by omega) ⟨s, hs, hp⟩
      refine ⟨key, ht.victim hv, hrun.mono ?_⟩
      rintro s' b' ⟨hP, hkey, f, rfl⟩
      exact evicted_replace hid (hI.lookup_of_has hkey) hP.was_free

/-- Three slots: the pages 1 and 2 have been pinned once and page 0 twice, and page 3 evicts one of them. -/
theorem pinPage_twoQ_threeSlots : ∃ h : History ℕ, h.Reach (.basic 3) ∧ h.fresh 0 = false ∧ h.fresh 1 = true ∧
    h.fresh 2 = true ∧ (∀ s < 3, (h.buf.pages s).pins = 0) ∧ TwoQ (.basic 3) h 3 (.fixed true) false := by
  have h₀ : (⟨.new (.basic 3) (fun _ => 0) 4 0, 0, fun _ => 0, fun _ => 0, fun _ => false, 0⟩ : History ℕ).Reach
      (.basic 3) := .new _ _ _
  have h₁ := h₀.step (@History.Step.pinPage _ _ _ 0 (.fixed true) true _ _ ⟨40, rfl⟩)
  have h₂ := h₁.step (@History.Step.unpinPage _ _ _ 0 true _ (by decide) ⟨10, rfl⟩)
  have h₃ := h₂.step (@History.Step.pinPage _ _ _ 1 (.fixed true) true _ _ ⟨40, rfl⟩)
  have h₄ := h₃.step (@History.Step.unpinPage _ _ _ 1 true _ (by decide) ⟨10, rfl⟩)
  have h₅ := h₄.step (@History.Step.pinPage _ _ _ 2 (.fixed true) true _ _ ⟨40, rfl⟩)
  have h₆ := h₅.step (@History.Step.unpinPage _ _ _ 2 false _ (by decide) ⟨10, rfl⟩)
  have h₇ := h₆.step (@History.Step.pinPage _ _ _ 0 (.fixed false) false _ _ ⟨40, rfl⟩)
  have h₈ := h₇.step (@History.Step.unpinPage _ _ _ 0 false _ (by decide) ⟨10, rfl⟩)
  exact ⟨_, h₈, rfl, rfl, rfl, by decide, (pinPage_twoQ_iff (.basic 3) _ h₈ 3 (.fixed true) false rfl rfl).mpr
    (.inl rfl)⟩

/-- One slot: page 1 was refused while page 0 was pinned, and page 0 cannot be evicted any more. -/
theorem pinPage_twoQ_refused : ∃ h : History ℕ, h.Reach (.basic 1) ∧ h.buf.pageTable.lookup 1 = none ∧
    h.buf.pageTable.entries.length = 1 ∧ ¬ TwoQ (.basic 1) h 1 (.fixed true) false := by
  have h₀ : (⟨.new (.basic 1) (fun _ => 0) 2 0, 0, fun _ => 0, fun _ => 0, fun _ => false, 0⟩ : History ℕ).Reach
      (.basic 1) := .new _ _ _
  have h₁ := h₀.step (@History.Step.pinPage _ _ _ 0 (.fixed true) true _ _ ⟨40, rfl⟩)
  have h₂ := h₁.step (@History.Step.bufferFull _ _ _ 1 (.fixed true) false _ ⟨40, _, rfl, rfl⟩)
  have h₃ := h₂.step (@History.Step.unpinPage _ _ _ 0 false _ (by decide) ⟨10, rfl⟩)
  refine ⟨_, h₃, rfl, rfl, ?_⟩
  intro hrule
  obtain ⟨key, -, hrun⟩ := hrule.evicts ⟨0, by decide, rfl⟩
  exact absurd hrun (Raises.not_runs (e := .blocked) (Q := fun _ => True) ⟨40, _, rfl, trivial⟩)

end BEpsilon.Buffer
