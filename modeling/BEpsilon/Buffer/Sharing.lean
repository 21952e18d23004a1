import BEpsilon.Lib.Holders
import BEpsilon.Lib.Pool
import BEpsilon.Buffer.Invariant

/-!
# BEpsilon.Buffer.Sharing — the page buffer below any number of threads

Threads pin, read, write and unpin pages of one buffer, and a step is one command of `pinPage` or `unpinPage`; a
thread whose command has to wait, or raises an error, takes no step.  `Ghost` says what each thread holds and what
was last written to each page.  The users keep to `Allowed`: a page is read and written only while it is pinned,
and written only below its exclusive latch; a page that was written is unpinned dirty; and only a page that nobody
else pins, and to which nothing was written yet, is pinned without loading it.
-/

namespace BEpsilon.Buffer

open PageBuffer

/-- What a user of the buffer does. -/
inductive ClientOp (D : Type) : Type
  | createPage
  | pinPage (id : PageId) (mode : LatchMode D) (skipLoad : Bool)
  | unpinPage (id : PageId) (dirty : Bool)
  | read (id : PageId)
  | write (id : PageId) (d : D)

/-- Where an operation begins, and where a pin ends. -/
inductive TurnCmd (D : Type) : Type → Type
  /-- the operation begins, on the page in the slot that is answered -/
  | enter (op : ClientOp D) : TurnCmd D ℕ
  /-- the page has been pinned -/
  | leave (id : PageId) (index : ℕ) : TurnCmd D Unit

/-- The commands of a thread. -/
abbrev ShareCmd (D : Type) : Type → Type := fun β => BufCmd D β ⊕ TurnCmd D β

variable {D T : Type}

/-- A program of the buffer, in a thread. -/
def BufProg.shared {α : Type} (p : BufProg D α) : Prog (ShareCmd D) α := p.lift fun _ c => .inl c

/-- An operation of a thread. -/
def clientOp : ClientOp D → Prog (ShareCmd D) Unit
  | .createPage => do
    let _ ← (BufProg.shared (Prog.cmd .createBlock) : Prog (ShareCmd D) PageId)
  | .pinPage id mode skipLoad => do
    let _ ← Prog.cmd (.inr (.enter (.pinPage id mode skipLoad)))
    let index ← (pinPage id mode skipLoad).shared
    Prog.cmd (.inr (.leave id index))
  | .unpinPage id dirty => do
    let index ← Prog.cmd (.inr (.enter (.unpinPage id dirty)))
    (unpinPage index dirty).shared
  | .read id => do
    let index ← Prog.cmd (.inr (.enter (.read id)))
    let _ ← (BufProg.shared (Prog.cmd (.readPage index)) : Prog (ShareCmd D) D)
  | .write id d => do
    let index ← Prog.cmd (.inr (.enter (.write id d)))
    BufProg.shared (Prog.cmd (.writePage index d))

/-- What each thread holds, and what was last written to each page. -/
structure Ghost (D T : Type) where
  mem : PageId → Option D
  table : T → Option Bool
  pins : T → ℕ → ℕ
  latch : T → ℕ → Option Bool
  /-- the slot whose page the thread has still to load -/
  loading : T → Option ℕ
  /-- the slot whose page it has marked as clean and has still to save -/
  saving : T → Option ℕ
  /-- the slots that it has written to, and not marked as dirty yet -/
  wrote : T → Finset ℕ
  /-- the slots of the pages that it has pinned -/
  refs : T → PageId → Option ℕ
  /-- the page that it is about to pin; is the load skipped? -/
  pinning : T → Option (PageId × Bool)

/-- The buffer and what its threads hold. -/
structure Sharing (D T : Type) where
  buf : PageBuffer D
  ghost : Ghost D T

variable [DecidableEq T]

/-- `f t s` becomes `x`. -/
def update₂ {S α : Type} [DecidableEq S] (f : T → S → α) (t : T) (s : S) (x : α) : T → S → α :=
  Function.update f t (Function.update (f t) s x)

namespace Ghost

/-- The slot is given to the page that the thread is about to pin. -/
def take (g : Ghost D T) (t : T) (id : PageId) (index : ℕ) : Ghost D T :=
  { g with loading := Function.update g.loading t (if g.pinning t = some (id, true) then none else some index) }

/-- What becomes of it when thread `t` has issued a command in the buffer `b` and got the answer `a`. -/
def after (g : Ghost D T) (t : T) (b : PageBuffer D) : {β : Type} → BufCmd D β → β → Ghost D T
  | _, .lockTable exclusive, _ => { g with table := Function.update g.table t (some exclusive) }
  | _, .unlockTable _, _ => { g with table := Function.update g.table t none }
  | _, .takeFreeSlot id, index => g.take t id index
  | _, .replace _ _ id pageIndex, _ => g.take t id pageIndex
  | _, .incPins index, _ => { g with pins := update₂ g.pins t index (g.pins t index + 1) }
  | _, .decPins index, _ => { g with pins := update₂ g.pins t index (g.pins t index - 1) }
  | _, .setPins index pins, _ => { g with pins := update₂ g.pins t index pins }
  | _, .setDirty index true, _ => { g with wrote := Function.update g.wrote t ((g.wrote t).erase index) }
  | _, .setDirty index false, _ =>
    if (b.pages index).dirty then { g with saving := Function.update g.saving t (some index) } else g
  | _, .lockPage index exclusive, _ => { g with latch := update₂ g.latch t index (some exclusive) }
  | _, .unlockPage index, _ => { g with latch := update₂ g.latch t index none }
  | _, .savePage _, _ => { g with saving := Function.update g.saving t none }
  | _, .loadPage _ _, _ => { g with loading := Function.update g.loading t none }
  | _, .writePage index d, _ => { g with
    mem := Function.update g.mem (b.pages index).id (some d)
    wrote := Function.update g.wrote t (insert index (g.wrote t)) }
  | _, _, _ => g

/-- May thread `t` begin the operation, on the page in this slot? -/
def Allowed (g : Ghost D T) (t : T) : ClientOp D → ℕ → Prop
  | .createPage, _ => True
  | .pinPage id _ skipLoad, _ => g.refs t id = none ∧ (∀ u, g.pinning u ≠ some (id, true)) ∧
      (skipLoad = true → g.mem id = none ∧ ∀ u, g.refs u id = none ∧ g.pinning u ≠ some (id, false))
  | .unpinPage id dirty, index => g.refs t id = some index ∧ (index ∈ g.wrote t → dirty = true)
  | .read id, index => g.refs t id = some index
  | .write id _, index => g.refs t id = some index ∧ g.latch t index = some true

/-- Thread `t` begins the operation. -/
def enter (g : Ghost D T) (t : T) : ClientOp D → Ghost D T
  | .pinPage id _ skipLoad => { g with pinning := Function.update g.pinning t (some (id, skipLoad)) }
  | .unpinPage id _ => { g with refs := update₂ g.refs t id none }
  | _ => g

/-- Thread `t` has pinned the page. -/
def leave (g : Ghost D T) (t : T) (id : PageId) (index : ℕ) : Ghost D T :=
  { g with
    refs := update₂ g.refs t id (some index)
    pinning := Function.update g.pinning t none }

end Ghost

namespace Sharing

/-- The commands of thread `t`. -/
def step (R : BufRules) (t : T) : Steps (ShareCmd D) (Sharing D T)
  | _, .inl c, w, a, w' => ∃ b, PageBuffer.handler R _ c w.buf = .ok a b ∧ w' = ⟨b, w.ghost.after t w.buf c a⟩
  | _, .inr (.enter op), w, index, w' => w.ghost.Allowed t op index ∧ w' = ⟨w.buf, w.ghost.enter t op⟩
  | _, .inr (.leave id index), w, _, w' => w' = ⟨w.buf, w.ghost.leave t id index⟩

/-- Threads that make any operations; one that raises an error stops. -/
def rules (R : BufRules) : PoolRules (ClientOp D) (ShareCmd D) (Sharing D T) T Unit where
  call := clientOp
  enter _ _ w := w
  step := step R
  raises _ _ _ _ := False

/-- A new buffer on a directory, of which the pages in `old` have been written before, and threads about to begin
their first operations. -/
def started (R : BufRules) (blocks : PageId → D) (created : ℕ) (zero : D) (old : PageId → Bool) (op : T → ClientOp D) :
    Pool (ClientOp D) (ShareCmd D) (Sharing D T) T Unit where
  world :=
    { buf := .new R blocks created zero
      ghost :=
        { mem := fun id => if old id then some (blocks id) else none
          table := fun _ => none
          pins := fun _ _ => 0
          latch := fun _ _ => none
          loading := fun _ => none
          saving := fun _ => none
          wrote := fun _ => ∅
          refs := fun _ _ => none
          pinning := fun _ => none } }
  op := op
  rest t := clientOp (op t)

end Sharing

/-! ### The buffer, field by field -/

/-- The containers of the buffer; the slots know their page ids. -/
def PageBuffer.tables (b : PageBuffer D) : PageBuffer Unit where
  blocks _ := ()
  created := 0
  pages s := { data := (), id := (b.pages s).id }
  pageTable := b.pageTable
  freeSlots := b.freeSlots
  fifoQueue := b.fifoQueue
  lruQueue := b.lruQueue
  tableMutex := {}

/-- What the commands read and change. -/
structure Fields (D : Type) where
  tables : PageBuffer Unit
  tableMutex : Latch
  blocks : PageId → D
  mutex : ℕ → Latch
  pins : ℕ → ℕ
  dirty : ℕ → Bool
  data : ℕ → D

def PageBuffer.fields (b : PageBuffer D) : Fields D where
  tables := b.tables
  tableMutex := b.tableMutex
  blocks := b.blocks
  mutex s := (b.pages s).mutex
  pins s := (b.pages s).pins
  dirty s := (b.pages s).dirty
  data s := (b.pages s).data

/-- What a command that returns `a` does to the fields. -/
def Fields.After (R : BufRules) (f : Fields D) : {β : Type} → BufCmd D β → β → Fields D → Prop
  | _, .lockTable exclusive, _, f' => ∃ l, f.tableMutex.lock exclusive = some l ∧ f' = { f with tableMutex := l }
  | _, .unlockTable _, _, f' => f' = { f with tableMutex := f.tableMutex.unlock }
  | _, .findPage id, a, f' => a = f.tables.pageTable.lookup id ∧ f' = f
  | _, .hasSpace, a, f' => a = decide (f.tables.pageTable.entries.length < R.N) ∧ f' = f
  | _, .reposition id index, _, f' => f' = { f with tables := f.tables.reposition id index }
  | _, .takeFreeSlot id, index, f' => index = R.slot f.tables.freeSlots ∧
      f' = { f with tables := f.tables.takeFreeSlot id index }
  | _, .readQueue v, a, f' => a = f.tables.queue v ∧ f' = f
  | _, .replace v key id index, _, f' => f' = { f with tables := f.tables.replace v key id index }
  | _, .incPins index, a, f' => a = f.pins index + 1 ∧
      f' = { f with pins := Function.update f.pins index (f.pins index + 1) }
  | _, .decPins index, _, f' => f' = { f with pins := Function.update f.pins index (f.pins index - 1) }
  | _, .getPins index, a, f' => a = f.pins index ∧ f' = f
  | _, .setPins index pins, _, f' => f' = { f with pins := Function.update f.pins index pins }
  | _, .getDirty index, a, f' => a = f.dirty index ∧ f' = f
  | _, .setDirty index dirty, _, f' => f' = { f with dirty := Function.update f.dirty index dirty }
  | _, .lockPage index exclusive, _, f' => ∃ l, (f.mutex index).lock exclusive = some l ∧
      f' = { f with mutex := Function.update f.mutex index l }
  | _, .unlockPage index, _, f' => f' = { f with mutex := Function.update f.mutex index (f.mutex index).unlock }
  | _, .savePage index, _, f' =>
      f' = { f with blocks := Function.update f.blocks (f.tables.pages index).id (f.data index) }
  | _, .loadPage id index, _, f' => f' = { f with data := Function.update f.data index (f.blocks id) }
  | _, .evalMode _ _, _, f' => f' = f
  | _, .isFree _, _, f' => f' = f
  | _, .createBlock, _, f' => f' = f
  | _, .readPage index, a, f' => a = f.data index ∧ f' = f
  | _, .writePage index d, _, f' => f' = { f with data := Function.update f.data index d }
  | _, .check _, _, f' => f' = f
  | _, .raise _, a, _ => a.elim

section Fields

omit [DecidableEq T]

variable {b : PageBuffer D} {index : ℕ} {f : Page D → Page D}

theorem column_modifyPage {α : Type} (g : Page D → α) :
    (fun s => g ((b.modifyPage index f).pages s)) =
      Function.update (fun s => g (b.pages s)) index (g (f (b.pages index))) := by
  ext s
  by_cases e : s = index
  · subst e
    rw [modifyPage_pages_self, Function.update_self]
  · rw [modifyPage_pages_ne e, Function.update_of_ne e]

theorem tables_modifyPage (hid : (f (b.pages index)).id = (b.pages index).id) :
    (b.modifyPage index f).tables = b.tables := by
  have hpages : (fun s => ({ data := (), id := ((b.modifyPage index f).pages s).id } : Page Unit)) = _ :=
    column_modifyPage fun p => ({ data := (), id := p.id } : Page Unit)
  rw [hid, Function.update_eq_self index fun s => ({ data := (), id := (b.pages s).id } : Page Unit)] at hpages
  simp only [PageBuffer.tables, hpages]
  rfl

theorem fields_modifyPage (hid : (f (b.pages index)).id = (b.pages index).id) :
    (b.modifyPage index f).fields = { b.fields with
      mutex := Function.update b.fields.mutex index (f (b.pages index)).mutex
      pins := Function.update b.fields.pins index (f (b.pages index)).pins
      dirty := Function.update b.fields.dirty index (f (b.pages index)).dirty
      data := Function.update b.fields.data index (f (b.pages index)).data } := by
  simp only [PageBuffer.fields, tables_modifyPage hid, column_modifyPage fun p => p.mutex,
    column_modifyPage fun p => p.pins, column_modifyPage fun p => p.dirty, column_modifyPage fun p => p.data]
  rfl

theorem pages_tables (b : PageBuffer D) (id : PageId) (index : ℕ) :
    (b.modifyPage index fun page => { page with id := id }).tables =
      b.tables.modifyPage index fun page => { page with id := id } := by
  have hpages : (b.modifyPage index fun page => { page with id := id }).tables.pages =
      (b.tables.modifyPage index fun page => { page with id := id }).pages := by
    ext s
    by_cases e : s = index
    · subst e
      rw [modifyPage_pages_self]
      simp [PageBuffer.tables]
    · rw [modifyPage_pages_ne e]
      simp [PageBuffer.tables, modifyPage_pages_ne e]
  simp only [PageBuffer.tables] at hpages
  simp only [PageBuffer.tables, hpages]
  rfl

theorem fields_setID (b : PageBuffer D) (id : PageId) (index : ℕ) :
    (b.modifyPage index fun page => { page with id := id }).fields =
      { b.fields with tables := b.tables.modifyPage index fun page => { page with id := id } } := by
  simp only [PageBuffer.fields, pages_tables, column_modifyPage fun p => p.mutex,
    column_modifyPage fun p => p.pins, column_modifyPage fun p => p.dirty, column_modifyPage fun p => p.data,
    Function.update_eq_self index fun s => (b.pages s).mutex, Function.update_eq_self index fun s => (b.pages s).pins,
    Function.update_eq_self index fun s => (b.pages s).dirty, Function.update_eq_self index fun s => (b.pages s).data]
  rfl

/-- What a command does to the buffer, it does to the fields. -/
theorem handler_fields {R : BufRules} {β : Type} {c : BufCmd D β} {a : β} {b' : PageBuffer D}
    (h : PageBuffer.handler R β c b = .ok a b') : b.fields.After R c a b'.fields := by
  cases c with
  | lockTable e =>
    simp only [PageBuffer.handler] at h
    split at h
    next l hl =>
      obtain ⟨-, rfl⟩ := Outcome.ok.inj h
      exact ⟨l, hl, rfl⟩
    next => cases h
  | takeFreeSlot id =>
    simp only [PageBuffer.handler] at h
    split at h
    next => cases h
    next =>
      obtain ⟨rfl, rfl⟩ := Outcome.ok.inj h
      exact ⟨rfl, fields_setID _ _ _⟩
  | replace v key id index =>
    obtain ⟨-, rfl⟩ := Outcome.ok.inj h
    cases v <;> exact fields_setID _ _ _
  | lockPage index e =>
    simp only [PageBuffer.handler] at h
    split at h
    next l hl =>
      obtain ⟨-, rfl⟩ := Outcome.ok.inj h
      refine ⟨l, hl, (fields_modifyPage rfl).trans ?_⟩
      simp [PageBuffer.fields]
    next => cases h
  | incPins index =>
    obtain ⟨rfl, rfl⟩ := Outcome.ok.inj h
    exact ⟨rfl, (fields_modifyPage rfl).trans (by simp [PageBuffer.fields])⟩
  | decPins index =>
    obtain ⟨-, rfl⟩ := Outcome.ok.inj h
    exact (fields_modifyPage rfl).trans (by simp [PageBuffer.fields])
  | setPins index pins =>
    obtain ⟨-, rfl⟩ := Outcome.ok.inj h
    exact (fields_modifyPage rfl).trans (by simp [PageBuffer.fields])
  | setDirty index dirty =>
    obtain ⟨-, rfl⟩ := Outcome.ok.inj h
    exact (fields_modifyPage rfl).trans (by simp [PageBuffer.fields])
  | unlockPage index =>
    obtain ⟨-, rfl⟩ := Outcome.ok.inj h
    exact (fields_modifyPage rfl).trans (by simp [PageBuffer.fields])
  | loadPage id index =>
    obtain ⟨-, rfl⟩ := Outcome.ok.inj h
    exact (fields_modifyPage rfl).trans (by simp [PageBuffer.fields])
  | writePage index d =>
    obtain ⟨-, rfl⟩ := Outcome.ok.inj h
    exact (fields_modifyPage rfl).trans (by simp [PageBuffer.fields])
  | check c =>
    simp only [PageBuffer.handler] at h
    split at h
    next => cases h
    next =>
      obtain ⟨-, rfl⟩ := Outcome.ok.inj h
      rfl
  | raise e => cases h
  | findPage id =>
    obtain ⟨rfl, rfl⟩ := Outcome.ok.inj h
    exact ⟨rfl, rfl⟩
  | hasSpace =>
    obtain ⟨rfl, rfl⟩ := Outcome.ok.inj h
    exact ⟨rfl, rfl⟩
  | readQueue v =>
    obtain ⟨rfl, rfl⟩ := Outcome.ok.inj h
    cases v <;> exact ⟨rfl, rfl⟩
  | getPins index =>
    obtain ⟨rfl, rfl⟩ := Outcome.ok.inj h
    exact ⟨rfl, rfl⟩
  | getDirty index =>
    obtain ⟨rfl, rfl⟩ := Outcome.ok.inj h
    exact ⟨rfl, rfl⟩
  | readPage index =>
    obtain ⟨rfl, rfl⟩ := Outcome.ok.inj h
    exact ⟨rfl, rfl⟩
  | _ =>
    obtain ⟨-, rfl⟩ := Outcome.ok.inj h
    rfl

end Fields

end BEpsilon.Buffer
