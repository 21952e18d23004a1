import BEpsilon.Buffer.PinPage
import Mathlib.Data.Finset.Card

/-!
# BEpsilon.Buffer.Invariant — the representation invariant of the page buffer

`Inv` ties the table, the free slots, the two queues and the slots together between two calls of one
thread.  Each path of `pinPage` keeps it, and so do `unpinPage` and `flush`.
-/

namespace BEpsilon.Buffer

open PageBuffer

variable {D : Type}

/-- The latch of a page is held as often as the page is pinned. -/
def LatchOk (page : Page D) : Prop :=
  if page.mutex.exclusive then page.mutex.shared = 0 ∧ page.pins = 1
  else page.mutex.shared = page.pins

/-- The state of the buffer between two calls. -/
structure Inv (R : BufRules) (b : PageBuffer D) : Prop where
  unlocked : b.tableMutex = {}
  inj : ∀ id id' s, b.pageTable.lookup id = some s → b.pageTable.lookup id' = some s → id = id'
  slot_lt : ∀ id s, b.pageTable.lookup id = some s → s < R.N
  free : ∀ s, s ∈ b.freeSlots ↔ s < R.N ∧ ∀ id, b.pageTable.lookup id ≠ some s
  count : b.pageTable.entries.length + b.freeSlots.card = R.N
  page_id : ∀ id s, b.pageTable.lookup id = some s → (b.pages s).id = id
  fifo_ok : b.fifoQueue.Ok
  lru_ok : b.lruQueue.Ok
  queued : ∀ id s, b.pageTable.lookup id = some s ↔ b.fifoQueue.Has id s ∨ b.lruQueue.Has id s
  apart : ∀ id s s', b.fifoQueue.Has id s → ¬ b.lruQueue.Has id s'
  free_pins : ∀ s ∈ b.freeSlots, (b.pages s).pins = 0
  latch : ∀ s, LatchOk (b.pages s)

theorem LatchOk.idle {page : Page D} (h : LatchOk page) (hp : page.pins = 0) : page.mutex = {} := by
  obtain ⟨data, id, ⟨e, s⟩, pins, dirty⟩ := page
  cases e <;> simp_all [LatchOk]

theorem latchOk_held {d : D} {id : PageId} {dirty : Bool} (e : Bool) :
    LatchOk ({ data := d, id := id, mutex := held e, pins := 1, dirty := dirty } : Page D) := by
  cases e <;> simp [LatchOk, held]

theorem inv_new (R : BufRules) (blocks : PageId → D) (created : ℕ) (zero : D) :
    Inv R (new R blocks created zero) where
  unlocked := rfl
  inj id id' s h := by simp [new] at h
  slot_lt id s h := by simp [new] at h
  free s := by simp [new]
  count := by simp [new]
  page_id id s h := by simp [new] at h
  fifo_ok := Queue.ok_empty
  lru_ok := Queue.ok_empty
  queued id s := by simp [new, Queue.Has]
  apart id s s' h := by simp [new, Queue.Has] at h
  free_pins s _ := rfl
  latch s := by simp [new, LatchOk]

variable {R : BufRules} {b : PageBuffer D} {id : PageId} {index : ℕ}

/-- Changing a page without touching its id, with its latch and pins in step. -/
theorem Inv.modifyPage (hI : Inv R b) {f : Page D → Page D}
    (hid : (f (b.pages index)).id = (b.pages index).id) (hlatch : LatchOk (f (b.pages index)))
    (hfree : index ∈ b.freeSlots → (f (b.pages index)).pins = 0) : Inv R (b.modifyPage index f) where
  unlocked := hI.unlocked
  inj := hI.inj
  slot_lt := hI.slot_lt
  free := hI.free
  count := hI.count
  page_id id s h := by
    by_cases e : s = index
    · subst e
      rw [modifyPage_pages_self, hid]
      exact hI.page_id id s h
    · rw [modifyPage_pages_ne e]
      exact hI.page_id id s h
  fifo_ok := hI.fifo_ok
  lru_ok := hI.lru_ok
  queued := hI.queued
  apart := hI.apart
  free_pins s h := by
    by_cases e : s = index
    · subst e
      rw [modifyPage_pages_self]
      exact hfree h
    · rw [modifyPage_pages_ne e]
      exact hI.free_pins s h
  latch s := by
    by_cases e : s = index
    · subst e
      rw [modifyPage_pages_self]
      exact hlatch
    · rw [modifyPage_pages_ne e]
      exact hI.latch s

theorem Inv.createBlock (hI : Inv R b) : Inv R { b with created := b.created + 1 } :=
  ⟨hI.unlocked, hI.inj, hI.slot_lt, hI.free, hI.count, hI.page_id, hI.fifo_ok, hI.lru_ok, hI.queued,
    hI.apart, hI.free_pins, hI.latch⟩

theorem Inv.not_free (hI : Inv R b) (hid : b.pageTable.lookup id = some index) :
    index ∉ b.freeSlots := fun h => ((hI.free index).mp h).2 id hid

/-- The 2Q keeps its pages when one of them is repositioned. -/
theorem Inv.reposition (hI : Inv R b) (hid : b.pageTable.lookup id = some index) :
    Inv R (b.reposition id index) := by
  have hq := (hI.queued id index).mp hid
  have key : (repositioned b.fifoQueue b.lruQueue id index).1.Ok ∧
      (repositioned b.fifoQueue b.lruQueue id index).2.Ok ∧
      (∀ id' s, (repositioned b.fifoQueue b.lruQueue id index).1.Has id' s ∨
        (repositioned b.fifoQueue b.lruQueue id index).2.Has id' s ↔
          b.fifoQueue.Has id' s ∨ b.lruQueue.Has id' s) ∧
      ∀ id' s s', (repositioned b.fifoQueue b.lruQueue id index).1.Has id' s →
        ¬ (repositioned b.fifoQueue b.lruQueue id index).2.Has id' s' := by
    unfold repositioned
    split
    next hc =>
      -- the page moves from FIFO to LRU
      obtain ⟨s, hs⟩ := hI.fifo_ok.contains_iff.mp hc
      have hs' : b.fifoQueue.Has id index := hq.resolve_right (hI.apart id s index hs)
      have hnot : ¬ b.lruQueue.contains id = true := fun h => by
        obtain ⟨s', hs'⟩ := hI.lru_ok.contains_iff.mp h
        exact hI.apart id s s' hs hs'
      refine ⟨hI.fifo_ok.remove, hI.lru_ok.insert hnot index, fun id' s => ?_, fun id' s s' h h' => ?_⟩
      · rw [hI.fifo_ok.has_remove, Queue.has_insert]
        by_cases e : id' = id
        · subst e
          constructor
          · rintro (⟨hne, -⟩ | ⟨-, rfl⟩ | h)
            · exact absurd rfl hne
            · exact .inl hs'
            · exact .inr h
          · rintro (h | h)
            · exact .inr (.inl ⟨rfl, hI.fifo_ok.has_inj h hs'⟩)
            · exact .inr (.inr h)
        · simp [e]
      · rw [hI.fifo_ok.has_remove] at h
        rw [Queue.has_insert] at h'
        rcases h' with ⟨e, -⟩ | h'
        · exact h.1 e
        · exact hI.apart id' s s' h.2 h'
    next hc =>
      have hl : b.lruQueue.Has id index :=
        hq.resolve_left fun h => hc (hI.fifo_ok.contains_iff.mpr ⟨_, h⟩)
      rw [if_pos (hI.lru_ok.contains_iff.mpr ⟨_, hl⟩)]
      refine ⟨hI.fifo_ok, hI.lru_ok.toFront, fun id' s => ?_, fun id' s s' h h' => ?_⟩
      · rw [hI.lru_ok.has_toFront]
      · exact hI.apart id' s s' h (hI.lru_ok.has_toFront.mp h')
  exact ⟨hI.unlocked, hI.inj, hI.slot_lt, hI.free, hI.count, hI.page_id, key.1, key.2.1,
    fun id' s => (hI.queued id' s).trans (key.2.2.1 id' s).symm, key.2.2.2, hI.free_pins, hI.latch⟩

theorem Inv.not_queued (hI : Inv R b) (hid : b.pageTable.lookup id = none) (s : ℕ) :
    ¬ b.fifoQueue.Has id s ∧ ¬ b.lruQueue.Has id s := by
  have h := mt (hI.queued id s).mpr (by rw [hid]; simp)
  exact not_or.mp h

/-- A page that is not in memory gets a free slot. -/
theorem Inv.takeFreeSlot (hI : Inv R b) (hid : b.pageTable.lookup id = none)
    (hfree : index ∈ b.freeSlots) : Inv R (b.takeFreeSlot id index) := by
  obtain ⟨hlt, hno⟩ := (hI.free index).mp hfree
  have hlook : ∀ id', (b.takeFreeSlot id index).pageTable.lookup id' =
      if id' = id then some index else b.pageTable.lookup id' := fun id' => by
    by_cases e : id' = id
    · subst e
      simp [PageBuffer.takeFreeSlot]
    · simp [PageBuffer.takeFreeSlot, AList.lookup_insert_ne e, e]
  have hpages : ∀ s, (b.takeFreeSlot id index).pages s =
      if s = index then { b.pages index with id := id } else b.pages s := fun s => by
    by_cases e : s = index
    · subst e
      simp [PageBuffer.takeFreeSlot]
    · simp [PageBuffer.takeFreeSlot, PageBuffer.modifyPage, e]
  refine ⟨hI.unlocked, fun i i' s h h' => ?_, fun i s h => ?_, fun s => ?_, ?_, fun i s h => ?_, ?_,
    hI.lru_ok, fun i s => ?_, fun i s s' h h' => ?_, fun s h => ?_, fun s => ?_⟩
  · rw [hlook] at h h'
    split at h <;> split at h'
    next e e' => rw [e, e']
    next => exact absurd (h'.trans h.symm) (hno i')
    next => exact absurd (h.trans h'.symm) (hno i)
    next => exact hI.inj i i' s h h'
  · rw [hlook] at h
    split at h
    · obtain rfl := by simpa using h
      exact hlt
    · exact hI.slot_lt i s h
  · rw [show (b.takeFreeSlot id index).freeSlots = b.freeSlots.erase index from rfl,
      Finset.mem_erase, hI.free]
    constructor
    · rintro ⟨hne, hs, h⟩
      refine ⟨hs, fun i => ?_⟩
      rw [hlook]
      split
      · simpa using Ne.symm hne
      · exact h i
    · rintro ⟨hs, h⟩
      have h₀ := h id
      rw [hlook, if_pos rfl] at h₀
      refine ⟨fun e => h₀ (by rw [e]), hs, fun i hi => ?_⟩
      have h₁ := h i
      rw [hlook] at h₁
      split at h₁
      next e => rw [e, hid] at hi; simp at hi
      next => exact h₁ hi
  · have hmem : id ∉ b.pageTable := AList.lookup_eq_none.mp hid
    have hpos := Finset.card_pos.mpr ⟨index, hfree⟩
    have := hI.count
    simp only [PageBuffer.takeFreeSlot, modifyPage_pageTable, modifyPage_freeSlots,
      AList.entries_insert_of_notMem hmem, List.length_cons, Finset.card_erase_of_mem hfree]
    omega
  · rw [hlook] at h
    rw [hpages]
    split at h
    next e =>
      obtain rfl := by simpa using h
      rw [if_pos rfl, e]
    next =>
      rw [if_neg fun e => hno i (by rw [h, e])]
      exact hI.page_id i s h
  · refine hI.fifo_ok.insert (fun hc => ?_) index
    obtain ⟨s, hs⟩ := hI.fifo_ok.contains_iff.mp hc
    exact (hI.not_queued hid s).1 hs
  · rw [hlook]
    show _ ↔ (b.fifoQueue.insert id index).Has i s ∨ b.lruQueue.Has i s
    rw [Queue.has_insert]
    by_cases e : i = id
    · subst e
      have := hI.not_queued hid s
      simp [this, eq_comm]
    · simp [e, hI.queued]
  · rw [show (b.takeFreeSlot id index).fifoQueue = b.fifoQueue.insert id index from rfl,
      Queue.has_insert] at h
    rcases h with ⟨rfl, rfl⟩ | h
    · exact (hI.not_queued hid s').2 h'
    · exact hI.apart i s s' h h'
  · rw [hpages]
    have h' := Finset.mem_erase.mp h
    rw [if_neg h'.1]
    exact hI.free_pins s h'.2
  · rw [hpages]
    split
    · exact hI.latch index
    · exact hI.latch s

/-- The slot of an evicted page is free. -/
def PageBuffer.release (b : PageBuffer D) (v : Victims) (key : PageId) (index : ℕ) : PageBuffer D :=
  { b with
    pageTable := b.pageTable.erase key
    freeSlots := insert index b.freeSlots }.setQueue v ((b.queue v).remove key)

/-- Eviction frees the slot and takes it again. -/
theorem replace_eq {v : Victims} {key : PageId} (hfree : index ∉ b.freeSlots) :
    b.replace v key id index = (b.release v key index).takeFreeSlot id index := by
  cases v <;> simp [replace, PageBuffer.release, PageBuffer.takeFreeSlot, setQueue, queue, hfree]

theorem Inv.queue_ok (hI : Inv R b) (v : Victims) : (b.queue v).Ok := by
  cases v
  · exact hI.fifo_ok
  · exact hI.lru_ok

theorem Inv.lookup_of_has (hI : Inv R b) {v : Victims} (h : (b.queue v).Has id index) :
    b.pageTable.lookup id = some index := by
  cases v
  · exact (hI.queued id index).mpr (.inl h)
  · exact (hI.queued id index).mpr (.inr h)

theorem Inv.release (hI : Inv R b) {v : Victims} {key : PageId} (hkey : (b.queue v).Has key index)
    (hpins : (b.pages index).pins = 0) : Inv R (b.release v key index) := by
  have hlook := hI.lookup_of_has hkey
  have htable : ∀ i s, (b.release v key index).pageTable.lookup i = some s ↔
      i ≠ key ∧ b.pageTable.lookup i = some s := fun i s => by
    have e₀ : (b.release v key index).pageTable = b.pageTable.erase key := by cases v <;> rfl
    rw [e₀]
    by_cases e : i = key
    · subst e; simp
    · simp [AList.lookup_erase_ne e, e]
  have hpages : (b.release v key index).pages = b.pages := by cases v <;> rfl
  have hslots : (b.release v key index).freeSlots = insert index b.freeSlots := by cases v <;> rfl
  have hnf := hI.not_free hlook
  refine ⟨?_, fun i i' s h h' => ?_, fun i s h => ?_, fun s => ?_, ?_, fun i s h => ?_, ?_, ?_,
    fun i s => ?_, fun i s s' h h' => ?_, fun s h => ?_, fun s => ?_⟩
  · cases v <;> exact hI.unlocked
  · exact hI.inj i i' s ((htable i s).mp h).2 ((htable i' s).mp h').2
  · exact hI.slot_lt i s ((htable i s).mp h).2
  · rw [hslots, Finset.mem_insert, hI.free]
    constructor
    · rintro (rfl | ⟨hs, h⟩)
      · refine ⟨hI.slot_lt key _ hlook, fun i hi => ?_⟩
        have hi' := (htable i _).mp hi
        exact hi'.1 (hI.inj i key _ hi'.2 hlook)
      · exact ⟨hs, fun i hi => h i ((htable i s).mp hi).2⟩
    · rintro ⟨hs, h⟩
      by_cases e : s = index
      · exact .inl e
      · refine .inr ⟨hs, fun i hi => h i ((htable i s).mpr ⟨?_, hi⟩)⟩
        rintro rfl
        exact e (Option.some.inj (hi.symm.trans hlook))
  · have hmem : key ∈ b.pageTable.keys := AList.mem_keys.mp (AList.lookup_isSome.mp (by simp [hlook]))
    have hlen : (b.pageTable.erase key).entries.length = b.pageTable.entries.length - 1 := by
      have := congrArg List.length (AList.keys_erase key b.pageTable)
      rw [List.length_erase_of_mem hmem] at this
      simpa [AList.keys, List.keys] using this
    have hpos : 0 < b.pageTable.entries.length := by
      have := List.length_pos_of_mem hmem
      simpa [AList.keys, List.keys] using this
    have := hI.count
    rw [hslots, Finset.card_insert_of_notMem hnf,
      show (b.release v key index).pageTable = b.pageTable.erase key by cases v <;> rfl, hlen]
    omega
  · rw [hpages]
    exact hI.page_id i s ((htable i s).mp h).2
  · cases v
    · exact hI.fifo_ok.remove
    · exact hI.fifo_ok
  · cases v
    · exact hI.lru_ok
    · exact hI.lru_ok.remove
  · rw [htable, hI.queued]
    cases v with
    | fifo =>
      show _ ↔ (b.fifoQueue.remove key).Has i s ∨ b.lruQueue.Has i s
      rw [hI.fifo_ok.has_remove]
      have hno : b.lruQueue.Has i s → i ≠ key := by
        rintro h rfl
        exact hI.apart i index s hkey h
      tauto
    | lru =>
      show _ ↔ b.fifoQueue.Has i s ∨ (b.lruQueue.remove key).Has i s
      rw [hI.lru_ok.has_remove]
      have hno : b.fifoQueue.Has i s → i ≠ key := by
        rintro h rfl
        exact hI.apart i s index h hkey
      tauto
  · cases v with
    | fifo => exact hI.apart i s s' (hI.fifo_ok.has_remove.mp h).2 h'
    | lru => exact hI.apart i s s' h (hI.lru_ok.has_remove.mp h').2
  · rw [hpages]
    rcases Finset.mem_insert.mp (hslots ▸ h) with rfl | h
    · exact hpins
    · exact hI.free_pins s h
  · rw [hpages]
    exact hI.latch s

theorem Inv.writtenBack (hI : Inv R b) (index : ℕ) : Inv R (b.writtenBack index) := by
  unfold PageBuffer.writtenBack
  split
  · exact ⟨hI.unlocked, hI.inj, hI.slot_lt, hI.free, hI.count, hI.page_id, hI.fifo_ok, hI.lru_ok,
      hI.queued, hI.apart, hI.free_pins, hI.latch⟩
  · exact hI

end BEpsilon.Buffer
