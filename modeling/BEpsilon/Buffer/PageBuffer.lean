import BEpsilon.Buffer.PageProg
import BEpsilon.Buffer.Queue
import Mathlib.Data.Finset.Max

/-!
# BEpsilon.Buffer.PageBuffer — the page buffer

`PageBuffer.h`: N slots, the table from page ids to slots, the free slots, the two queues and the
mutexes, over a segment manager that is a map from ids to blocks.  `pinPage`, `unpinPage` and `flush`
are programs over `BufCmd`, one command for each step that other threads can see: acquiring and
releasing a mutex, reading and changing `pins` and `dirty`, loading and saving a page, evaluating the
mode function, and the updates of the table and the queues that are made under the table lock.  A
command that has to wait is refused as `blocked`.
-/

namespace BEpsilon.Buffer

/-- A `std::shared_mutex`. -/
structure Latch where
  exclusive : Bool := false
  shared : ℕ := 0
  deriving DecidableEq

namespace Latch

/-- `lock()` or `lock_shared()`; `none` when it has to wait. -/
def lock (l : Latch) (exclusive : Bool) : Option Latch :=
  if l.exclusive then none
  else if exclusive then if l.shared = 0 then some { l with exclusive := true } else none
  else some { l with shared := l.shared + 1 }

/-- `unlock()` and `unlock_shared()`: give up the lock, whichever it is. -/
def unlock (l : Latch) : Latch :=
  if l.exclusive then { l with exclusive := false } else { l with shared := l.shared - 1 }

end Latch

structure Page (D : Type) where
  data : D
  id : PageId := UInt64.size - 1
  mutex : Latch := {}
  /-- protects the page from eviction -/
  pins : ℕ := 0
  dirty : Bool := false

/-- The template arguments and what is not fixed by the code: is `assert` compiled in, the ids that
`SegmentManager::createBlock` hands out, and which free slot `*freeSlots.begin()` is. -/
structure BufRules where
  N : ℕ
  asserts : Bool
  ids : ℕ → PageId
  ids_inj : ∀ i j, ids i = ids j → i = j
  slot : Finset ℕ → ℕ
  slot_mem : ∀ s : Finset ℕ, s.Nonempty → slot s ∈ s

/-- `N` slots, ids that count up from zero, and the lowest free slot first. -/
def BufRules.basic (N : ℕ) : BufRules where
  N := N
  asserts := true
  ids i := i
  ids_inj := fun _ _ h => h
  slot s := if h : s.Nonempty then s.min' h else 0
  slot_mem s h := by rw [dif_pos h]; exact s.min'_mem h

structure PageBuffer (D : Type) where
  /-- the blocks of the segment manager -/
  blocks : PageId → D
  /-- how many blocks were created -/
  created : ℕ
  /-- the slots below N -/
  pages : ℕ → Page D
  pageTable : AList (fun _ : PageId => ℕ)
  freeSlots : Finset ℕ
  fifoQueue : Queue PageId ℕ
  lruQueue : Queue PageId ℕ
  tableMutex : Latch

/-- The queue that a victim is taken from. -/
inductive Victims : Type
  | fifo
  | lru
  deriving DecidableEq

namespace PageBuffer

variable {D : Type}

/-- The constructor, on blocks that are already there; `zero` is the value-initialised data. -/
def new (R : BufRules) (blocks : PageId → D) (created : ℕ) (zero : D) : PageBuffer D :=
  { blocks := blocks, created := created, pages := fun _ => { data := zero }, pageTable := ∅,
    freeSlots := Finset.range R.N, fifoQueue := {}, lruQueue := {}, tableMutex := {} }

def modifyPage (b : PageBuffer D) (index : ℕ) (f : Page D → Page D) : PageBuffer D :=
  { b with pages := Function.update b.pages index (f (b.pages index)) }

/-- `writeBlock(page.id, page.data)` -/
def save (b : PageBuffer D) (index : ℕ) : PageBuffer D :=
  { b with blocks := Function.update b.blocks (b.pages index).id (b.pages index).data }

def queue (b : PageBuffer D) : Victims → Queue PageId ℕ
  | .fifo => b.fifoQueue
  | .lru => b.lruQueue

def setQueue (b : PageBuffer D) (v : Victims) (q : Queue PageId ℕ) : PageBuffer D :=
  match v with
  | .fifo => { b with fifoQueue := q }
  | .lru => { b with lruQueue := q }

/-- The 2Q after a page has been pinned from zero pins: `fifoQueue` and `lruQueue`. -/
def repositioned (fifo lru : Queue PageId ℕ) (id : PageId) (index : ℕ) :
    Queue PageId ℕ × Queue PageId ℕ :=
  if fifo.contains id then (fifo.remove id, lru.insert id index)
  else if lru.contains id then (fifo, lru.toFront id)
  else (fifo.insert id index, lru)

/-- 0 -> 1: update position in 2Q. -/
def reposition (b : PageBuffer D) (id : PageId) (index : ℕ) : PageBuffer D :=
  { b with
    fifoQueue := (repositioned b.fifoQueue b.lruQueue id index).1
    lruQueue := (repositioned b.fifoQueue b.lruQueue id index).2 }

/-- Gives a free slot to the page `id`. -/
def takeFreeSlot (b : PageBuffer D) (id : PageId) (freeIndex : ℕ) : PageBuffer D :=
  let b := { b with
    freeSlots := b.freeSlots.erase freeIndex
    pageTable := b.pageTable.insert id freeIndex
    fifoQueue := b.fifoQueue.insert id freeIndex }
  b.modifyPage freeIndex fun page => { page with id := id }

/-- Takes the slot `pageIndex` from the page `key` of a queue and gives it to the page `id`. -/
def replace (b : PageBuffer D) (v : Victims) (key id : PageId) (pageIndex : ℕ) : PageBuffer D :=
  let b := { b with pageTable := (b.pageTable.erase key).insert id pageIndex }
  let b := b.setQueue v ((b.queue v).remove key)
  let b := { b with fifoQueue := b.fifoQueue.insert id pageIndex }
  b.modifyPage pageIndex fun page => { page with id := id }

end PageBuffer

/-! ### Commands -/

/-- What a command ends in when it does not return. -/
inductive BufErr : Type
  | blocked
  | bufferFull
  | keyNotFound
  | assertFailed
  deriving DecidableEq

/-- The steps of the page buffer. -/
inductive BufCmd (D : Type) : Type → Type
  | lockTable (exclusive : Bool) : BufCmd D Unit
  | unlockTable (exclusive : Bool) : BufCmd D Unit
  /-- `pageTable.find(id)` -/
  | findPage (id : PageId) : BufCmd D (Option ℕ)
  /-- `pageTable.size() < pages.size()` -/
  | hasSpace : BufCmd D Bool
  | reposition (id : PageId) (index : ℕ) : BufCmd D Unit
  | takeFreeSlot (id : PageId) : BufCmd D ℕ
  | readQueue (v : Victims) : BufCmd D (Queue PageId ℕ)
  | replace (v : Victims) (key id : PageId) (pageIndex : ℕ) : BufCmd D Unit
  /-- `++page.pins` -/
  | incPins (index : ℕ) : BufCmd D ℕ
  | decPins (index : ℕ) : BufCmd D Unit
  | getPins (index : ℕ) : BufCmd D ℕ
  | setPins (index pins : ℕ) : BufCmd D Unit
  | getDirty (index : ℕ) : BufCmd D Bool
  | setDirty (index : ℕ) (dirty : Bool) : BufCmd D Unit
  | lockPage (index : ℕ) (exclusive : Bool) : BufCmd D Unit
  | unlockPage (index : ℕ) : BufCmd D Unit
  | savePage (index : ℕ) : BufCmd D Unit
  | loadPage (id : PageId) (index : ℕ) : BufCmd D Unit
  /-- `(*modeFunction)(page)` -/
  | evalMode (index : ℕ) (f : D → Bool) : BufCmd D Bool
  | isFree (index : ℕ) : BufCmd D Bool
  | createBlock : BufCmd D PageId
  | readPage (index : ℕ) : BufCmd D D
  | writePage (index : ℕ) (d : D) : BufCmd D Unit
  | check (b : Bool) : BufCmd D Unit
  | raise (e : BufErr) : BufCmd D Empty

/-- The commands on the state of the buffer. -/
def PageBuffer.handler {D : Type} (R : BufRules) : Handler (BufCmd D) BufErr (PageBuffer D)
  | _, .lockTable exclusive, b =>
    match b.tableMutex.lock exclusive with
    | some l => .ok () { b with tableMutex := l }
    | none => .raise .blocked b
  | _, .unlockTable _, b => .ok () { b with tableMutex := b.tableMutex.unlock }
  | _, .findPage id, b => .ok (b.pageTable.lookup id) b
  | _, .hasSpace, b => .ok (decide (b.pageTable.entries.length < R.N)) b
  | _, .reposition id index, b => .ok () (b.reposition id index)
  | _, .takeFreeSlot id, b =>
    if R.asserts && (decide (b.freeSlots = ∅) || (b.pageTable.lookup id).isSome) then
      .raise .assertFailed b
    else .ok (R.slot b.freeSlots) (b.takeFreeSlot id (R.slot b.freeSlots))
  | _, .readQueue v, b => .ok (b.queue v) b
  | _, .replace v key id pageIndex, b => .ok () (b.replace v key id pageIndex)
  | _, .incPins index, b =>
    .ok ((b.pages index).pins + 1) (b.modifyPage index fun page => { page with pins := page.pins + 1 })
  | _, .decPins index, b =>
    .ok () (b.modifyPage index fun page => { page with pins := page.pins - 1 })
  | _, .getPins index, b => .ok (b.pages index).pins b
  | _, .setPins index pins, b => .ok () (b.modifyPage index fun page => { page with pins := pins })
  | _, .getDirty index, b => .ok (b.pages index).dirty b
  | _, .setDirty index dirty, b =>
    .ok () (b.modifyPage index fun page => { page with dirty := dirty })
  | _, .lockPage index exclusive, b =>
    match (b.pages index).mutex.lock exclusive with
    | some l => .ok () (b.modifyPage index fun page => { page with mutex := l })
    | none => .raise .blocked b
  | _, .unlockPage index, b =>
    .ok () (b.modifyPage index fun page => { page with mutex := page.mutex.unlock })
  | _, .savePage index, b => .ok () (b.save index)
  | _, .loadPage id index, b =>
    .ok () (b.modifyPage index fun page => { page with data := b.blocks id })
  | _, .evalMode index f, b => .ok (f (b.pages index).data) b
  | _, .isFree index, b => .ok (decide (index ∈ b.freeSlots)) b
  | _, .createBlock, b => .ok (R.ids b.created) { b with created := b.created + 1 }
  | _, .readPage index, b => .ok (b.pages index).data b
  | _, .writePage index d, b => .ok () (b.modifyPage index fun page => { page with data := d })
  | _, .check c, b => if R.asserts && !c then .raise .assertFailed b else .ok () b
  | _, .raise e, b => .raise e b

/-! ### The operations -/

/-- Programs of the page buffer. -/
abbrev BufProg (D : Type) : Type → Type 1 := Prog (BufCmd D)

variable {D : Type}

/-- Evaluate the mode function, if there is one, and lock the page. -/
def latchPage (index : ℕ) : LatchMode D → BufProg D Unit
  | .fixed exclusive => .cmd (.lockPage index exclusive)
  | .modeFunction f => do
    let exclusive ← Prog.cmd (.evalMode index f)
    .cmd (.lockPage index exclusive)

/-- The page has got its slot: unlock the table, load the page unless told not to, and latch it. -/
def loadAndLatch (id : PageId) (mode : LatchMode D) (skipLoad : Bool) (index : ℕ) :
    BufProg D Unit := do
  if skipLoad then
    Prog.cmd (.unlockTable true)
  else
    Prog.cmd (.lockPage index true)
    Prog.cmd (.unlockTable true)
    Prog.cmd (.loadPage id index)
    Prog.cmd (.unlockPage index)
  latchPage index mode

/-- Case 1 of `pinPage`: the page is already in memory. -/
def pinHit (id : PageId) (mode : LatchMode D) (exclusivePageTableLock : Bool) (index : ℕ) :
    BufProg D (Bool ⊕ ℕ) := do
  let pins ← Prog.cmd (.incPins index)
  Prog.cmd (.check (1 ≤ pins))
  if pins = 1 ∧ exclusivePageTableLock = false then
    Prog.cmd (.decPins index)
    Prog.cmd (.unlockTable exclusivePageTableLock)
    return .inl true
  else
    if pins = 1 then
      Prog.cmd (.reposition id index)
    Prog.cmd (.unlockTable exclusivePageTableLock)
    latchPage index mode
    return .inr index

/-- Case 2.1: we still have space in memory. -/
def pinFree (id : PageId) (mode : LatchMode D) (skipLoad exclusivePageTableLock : Bool) :
    BufProg D (Bool ⊕ ℕ) := do
  if exclusivePageTableLock = false then
    Prog.cmd (.unlockTable exclusivePageTableLock)
    return .inl true
  else
    let freeIndex ← Prog.cmd (.takeFreeSlot id)
    Prog.cmd (.check ((← Prog.cmd (.getPins freeIndex)) = 0))
    Prog.cmd (.setPins freeIndex 1)
    Prog.cmd (.setDirty freeIndex false)
    loadAndLatch id mode skipLoad freeIndex
    return .inr freeIndex

/-- Write the victim back when it is dirty and hold the table lock exclusively. -/
def writeBack (exclusivePageTableLock : Bool) (pageIndex : ℕ) : BufProg D Unit := do
  if ← Prog.cmd (.getDirty pageIndex) then
    -- mark the page as clean since we write it to disk
    Prog.cmd (.setDirty pageIndex false)
    Prog.cmd (.lockPage pageIndex false)
    Prog.cmd (.unlockTable exclusivePageTableLock)
    Prog.cmd (.savePage pageIndex)
    Prog.cmd (.unlockPage pageIndex)
    Prog.cmd (.lockTable true)
  else
    if exclusivePageTableLock = false then
      Prog.cmd (.unlockTable exclusivePageTableLock)
      Prog.cmd (.lockTable true)

/-- `!pageTable.contains(id) && queue.contains(key) && page.pins == 1 && !page.dirty` -/
def stillEvictable (v : Victims) (key id : PageId) (pageIndex : ℕ) : BufProg D Bool := do
  if (← Prog.cmd (.findPage id)).isSome then return false
  else if !(← Prog.cmd (.readQueue v)).contains key then return false
  else if (← Prog.cmd (.getPins pageIndex)) ≠ 1 then return false
  else return !(← Prog.cmd (.getDirty pageIndex))

/-- Cases 2.2 and 2.3: evict the page `key`, which was found unpinned in a queue. -/
def pinEvict (id : PageId) (mode : LatchMode D) (skipLoad exclusivePageTableLock : Bool)
    (v : Victims) (key : PageId) : BufProg D (Bool ⊕ ℕ) := do
  match (← Prog.cmd (.readQueue v)).find key with
  | none => (.call (.raise .keyNotFound) Empty.elim)
  | some pageIndex =>
    let _ ← Prog.cmd (.incPins pageIndex)
    writeBack exclusivePageTableLock pageIndex
    if ← stillEvictable v key id pageIndex then
      -- the page was not accessed: we can evict it and use its slot
      Prog.cmd (.replace v key id pageIndex)
      Prog.cmd (.setDirty pageIndex false)
      loadAndLatch id mode skipLoad pageIndex
      return .inr pageIndex
    else
      -- we can't use this page
      Prog.cmd (.decPins pageIndex)
      Prog.cmd (.unlockTable true)
      return .inl false

/-- `queue.findOne` for a page without pins. -/
def findUnpinned (v : Victims) : BufProg D (Option PageId) := do
  (← Prog.cmd (.readQueue v)).findOne fun index => do return (← Prog.cmd (.getPins index)) = 0

/-- One round of the loop of `pinPage`; `inl` is `continue` with the next `exclusivePageTableLock`. -/
def pinAttempt (id : PageId) (mode : LatchMode D) (skipLoad exclusivePageTableLock : Bool) :
    BufProg D (Bool ⊕ ℕ) := do
  Prog.cmd (.lockTable exclusivePageTableLock)
  match ← Prog.cmd (.findPage id) with
  | some index => pinHit id mode exclusivePageTableLock index
  | none =>
    if ← Prog.cmd .hasSpace then pinFree id mode skipLoad exclusivePageTableLock
    else
      match ← findUnpinned .fifo with
      | some key => pinEvict id mode skipLoad exclusivePageTableLock .fifo key
      | none =>
        match ← findUnpinned .lru with
        | some key => pinEvict id mode skipLoad exclusivePageTableLock .lru key
        | none => (.call (.raise .bufferFull) Empty.elim)

/-- Pins a page and answers its slot. -/
def pinPage (id : PageId) (mode : LatchMode D) (skipLoad : Bool) : BufProg D ℕ :=
  Prog.iter (pinAttempt id mode skipLoad) false

def unpinPage (index : ℕ) (dirty : Bool) : BufProg D Unit := do
  Prog.cmd (.check (1 ≤ (← Prog.cmd (.getPins index))))
  if dirty then
    Prog.cmd (.setDirty index true)
  Prog.cmd (.unlockPage index)
  Prog.cmd (.decPins index)

/-- Saves the dirty pages. -/
def flush (R : BufRules) : BufProg D Unit :=
  Prog.forFold (fun _ index => do
    if !(← Prog.cmd (.isFree index)) then
      if ← Prog.cmd (.getDirty index) then
        Prog.cmd (.savePage index)) (List.range R.N) ()

end BEpsilon.Buffer
