import BEpsilon.Buffer.SharingInv

/-!
# BEpsilon.Buffer.SharingViews — what a thread knows of the shared buffer

`Outlook` is what one thread knows: what it holds, the containers while it has the table, the pages of the slots
that it has pinned, and, while it has the table exclusively, which of them it has pinned alone and which are clean.
`Proper` is what the threads owe each other.  A command that is `Proper` keeps `Sound`, changes what its thread knows
as `Outlook.step` says, and leaves true what the others know.
-/

namespace BEpsilon.Buffer

open PageBuffer

/-- What a thread holds. -/
structure Own where
  table : Option Bool
  pins : ℕ → ℕ
  latch : ℕ → Option Bool
  loading : Option ℕ
  saving : Option ℕ
  wrote : Finset ℕ
  refs : PageId → Option ℕ
  pinning : Option (PageId × Bool)

variable {D T : Type}

def Ghost.own (g : Ghost D T) (t : T) : Own :=
  ⟨g.table t, g.pins t, g.latch t, g.loading t, g.saving t, g.wrote t, g.refs t, g.pinning t⟩

/-- What a thread knows. -/
structure Outlook extends Own where
  /-- the containers, while it has the table -/
  tabs : PageBuffer Unit
  /-- the pages in slots that it has pinned -/
  page : ℕ → Option PageId
  /-- slots that nobody else has pinned -/
  sole : Finset ℕ
  /-- some of these, which are clean -/
  clean : Finset ℕ

namespace Outlook

/-- The slot is given to the page that the thread is about to pin. -/
def taken (v : Outlook) (id : PageId) (index : ℕ) (tabs : PageBuffer Unit) : Outlook :=
  { v with
    tabs := tabs
    loading := if v.pinning = some (id, true) then none else some index }

/-- What a command does to the outlook of its thread. -/
def step (R : BufRules) : Steps (ShareCmd D) Outlook
  | _, .inl (.lockTable e), v, _, v' => ∃ tabs, Inv R tabs ∧
      (∀ s id, v.page s = some id → tabs.pageTable.lookup id = some s) ∧ v' = { v with table := some e, tabs := tabs }
  | _, .inl (.unlockTable _), v, _, v' => v' = { v with table := none, sole := ∅, clean := ∅ }
  | _, .inl (.findPage id), v, a, v' => a = v.tabs.pageTable.lookup id ∧ v' = v
  | _, .inl .hasSpace, v, a, v' => a = decide (v.tabs.pageTable.entries.length < R.N) ∧ v' = v
  | _, .inl (.reposition id index), v, _, v' => v' = { v with tabs := v.tabs.reposition id index }
  | _, .inl (.takeFreeSlot id), v, index, v' => v.pins index = 0 ∧
      v' = { v.taken id index (v.tabs.takeFreeSlot id index) with
        sole := insert index v.sole
        clean := insert index v.clean }
  | _, .inl (.readQueue q), v, a, v' => a = v.tabs.queue q ∧ v' = v
  | _, .inl (.replace q key id index), v, _, v' =>
      v' = { v.taken id index (v.tabs.replace q key id index) with page := Function.update v.page index (some id) }
  | _, .inl (.incPins index), v, a, v' => 0 < a ∧
      v' = { v with
        pins := Function.update v.pins index (v.pins index + 1)
        page := Function.update v.page index (some (v.tabs.pages index).id) }
  | _, .inl (.decPins index), v, _, v' =>
      v' = { v with
        pins := Function.update v.pins index (v.pins index - 1)
        page := Function.update v.page index none }
  | _, .inl (.getPins index), v, a, v' => v.pins index ≤ a ∧ (index ∈ v.sole → a = v.pins index) ∧
      v' = if v.table = some true ∧ a = v.pins index then { v with sole := insert index v.sole } else v
  | _, .inl (.setPins index pins), v, _, v' =>
      v' = { v with
        pins := Function.update v.pins index pins
        page := Function.update v.page index (some (v.tabs.pages index).id) }
  | _, .inl (.getDirty index), v, a, v' => (index ∈ v.clean → a = false) ∧
      v' = if index ∈ v.sole ∧ a = false then { v with clean := insert index v.clean } else v
  | _, .inl (.setDirty index true), v, _, v' =>
      v' = { v with wrote := v.wrote.erase index, clean := v.clean.erase index }
  | _, .inl (.setDirty index false), v, _, v' => v' = v ∨ index ∉ v.clean ∧ v' = { v with saving := some index }
  | _, .inl (.lockPage index e), v, _, v' => v' = { v with latch := Function.update v.latch index (some e) }
  | _, .inl (.unlockPage index), v, _, v' => v' = { v with latch := Function.update v.latch index none }
  | _, .inl (.savePage _), v, _, v' => v' = { v with saving := none }
  | _, .inl (.loadPage _ _), v, _, v' => v' = { v with loading := none }
  | _, .inl (.writePage index _), v, _, v' => v' = { v with wrote := insert index v.wrote }
  | _, .inl (.raise _), _, a, _ => a.elim
  | _, .inl _, v, _, v' => v' = v
  | _, .inr (.enter (.pinPage id _ skipLoad)), v, _, v' => v.refs id = none ∧
      v' = { v with pinning := some (id, skipLoad) }
  | _, .inr (.enter (.unpinPage id dirty)), v, index, v' => v.refs id = some index ∧
      (index ∈ v.wrote → dirty = true) ∧ v' = { v with refs := Function.update v.refs id none }
  | _, .inr (.enter (.read id)), v, index, v' => v.refs id = some index ∧ v' = v
  | _, .inr (.enter (.write id _)), v, index, v' => v.refs id = some index ∧ v.latch index = some true ∧ v' = v
  | _, .inr (.enter .createPage), v, _, v' => v' = v
  | _, .inr (.leave id index), v, _, v' =>
      v' = { v with refs := Function.update v.refs id (some index), pinning := none }

/-- What a thread owes to the others when it issues a command. -/
def Proper : (β : Type) → ShareCmd D β → Outlook → Prop
  | _, .inl (.lockTable _), v => v.table = none
  | _, .inl (.unlockTable _), v => v.table ≠ none ∧ ∀ s, v.loading = some s → v.latch s = some true
  | _, .inl (.findPage _), v => v.table ≠ none
  | _, .inl .hasSpace, v => v.table ≠ none
  | _, .inl (.readQueue _), v => v.table ≠ none
  | _, .inl (.reposition id index), v => v.table = some true ∧ v.tabs.pageTable.lookup id = some index
  | _, .inl (.takeFreeSlot id), v => v.table = some true ∧ v.loading = none ∧ v.tabs.pageTable.lookup id = none ∧
      v.tabs.freeSlots.Nonempty ∧ ∃ skipLoad, v.pinning = some (id, skipLoad)
  | _, .inl (.replace q key id index), v => v.table = some true ∧ v.loading = none ∧
      v.tabs.pageTable.lookup id = none ∧ (v.tabs.queue q).Has key index ∧ index ∈ v.clean ∧ 0 < v.pins index ∧
      v.saving ≠ some index ∧ index ∉ v.wrote ∧ (∀ id', v.refs id' ≠ some index) ∧
      ∃ skipLoad, v.pinning = some (id, skipLoad)
  | _, .inl (.incPins index), v => v.table ≠ none ∧ ∃ id, v.tabs.pageTable.lookup id = some index
  | _, .inl (.decPins index), v => 0 < v.pins index ∧ v.latch index = none ∧ v.saving ≠ some index
  | _, .inl (.setPins index pins), v => pins = 1 ∧ index ∈ v.sole ∧ v.pins index = 0 ∧
      ∃ id, v.tabs.pageTable.lookup id = some index
  | _, .inl (.setDirty index dirty), v => 0 < v.pins index ∧ (dirty = false → v.saving = none)
  | _, .inl (.lockPage index _), v => v.latch index = none ∧ 0 < v.pins index
  | _, .inl (.unlockPage index), v => v.latch index ≠ none ∧ index ∉ v.wrote ∧ (∀ id, v.refs id ≠ some index) ∧
      v.loading ≠ some index
  | _, .inl (.savePage index), v => v.latch index = some false ∧ (∃ id, v.page index = some id) ∧
      v.loading ≠ some index ∧ (v.saving = none ∨ v.saving = some index)
  | _, .inl (.loadPage id index), v => v.loading = some index ∧ v.latch index = some true ∧ v.page index = some id
  | _, .inl (.readPage index), v => v.latch index ≠ none ∧ v.loading ≠ some index
  | _, .inl (.writePage index _), v => v.latch index = some true ∧ (∃ id, v.refs id = some index) ∧
      v.loading ≠ some index
  | _, .inl (.check b), _ => b = true
  | _, .inl (.raise e), _ => e = .bufferFull
  | _, .inl (.evalMode index _), v => 0 < v.pins index
  | _, .inl (.isFree _), v => v.table ≠ none
  | _, .inl (.getPins _), _ => True
  | _, .inl (.getDirty _), _ => True
  | _, .inl .createBlock, _ => True
  | _, .inr (.enter _), v => v.pinning = none
  | _, .inr (.leave id index), v => v.page index = some id ∧ v.latch index ≠ none ∧ v.loading ≠ some index ∧
      ∃ skipLoad, v.pinning = some (id, skipLoad)

end Outlook

variable [DecidableEq T]

/-- What the thread knows is true. -/
structure Sees (f : Fields D) (g : Ghost D T) (t : T) (v : Outlook) : Prop where
  own : v.toOwn = g.own t
  tabs : v.table ≠ none → v.tabs = f.tables
  page : ∀ s id, v.page s = some id → f.tables.pageTable.lookup id = some s ∧ 0 < v.pins s
  sole : ∀ s ∈ v.sole, v.table = some true ∧ f.pins s = v.pins s
  clean : ∀ s ∈ v.clean, s ∈ v.sole ∧ f.dirty s = false

variable {R : BufRules} {f f' : Fields D} {g : Ghost D T} {t u : T} {v x : Outlook} {s : ℕ} {id : PageId}

/-! ### The other threads -/

section Others

theorem after_own {b : PageBuffer D} {β : Type} {c : BufCmd D β} {a : β} (hu : u ≠ t) :
    (g.after t b c a).own u = g.own u := by
  cases c <;> simp [Ghost.after, Ghost.take, Ghost.own, update₂_thread hu, Function.update_of_ne hu]
  case setDirty index dirty =>
    cases dirty
    · simp only
      split <;> simp [Function.update_of_ne hu]
    · simp [Function.update_of_ne hu]

theorem enter_own {op : ClientOp D} (hu : u ≠ t) : (g.enter t op).own u = g.own u := by
  cases op <;> simp [Ghost.enter, Ghost.own, update₂_thread hu, Function.update_of_ne hu]

theorem leave_own (hu : u ≠ t) : (g.leave t id s).own u = g.own u := by
  simp [Ghost.leave, Ghost.own, update₂_thread hu, Function.update_of_ne hu]

/-- What a command of thread `t` leaves of the fields as it was. -/
structure Mild (g : Ghost D T) (t : T) (f f' : Fields D) : Prop where
  tables : f'.tables = f.tables ∨ g.table t = some true
  lookup : ∀ u s id, u ≠ t → 0 < g.pins u s → f.tables.pageTable.lookup id = some s →
    f'.tables.pageTable.lookup id = some s
  pins : ∀ s, f'.pins s = f.pins s ∨ 0 < g.pins t s ∨ g.table t ≠ none
  dirty : ∀ s, f'.dirty s = f.dirty s ∨ 0 < g.pins t s

omit [DecidableEq T] in
/-- The containers, the pins and the dirty flags are as they were. -/
theorem Mild.of_eq (htables : f'.tables = f.tables) (hpins : f'.pins = f.pins) (hdirty : f'.dirty = f.dirty) :
    Mild g t f f' where
  tables := .inl htables
  lookup u s id _ _ hs := by rwa [htables]
  pins s := .inl (congrFun hpins s)
  dirty s := .inl (congrFun hdirty s)

theorem Sees.others (hx : Sees f g u x) (h : Sound R f g) (hu : u ≠ t) (hm : Mild g t f f') {g' : Ghost D T}
    (hown : g'.own u = g.own u) : Sees f' g' u x := by
  obtain ⟨own, tabs, page, sole, clean⟩ := x
  obtain rfl : own = g.own u := hx.own
  have halone : g.table u = some true → g.table t = none := fun hut => h.table_alone hut (Ne.symm hu)
  have hmine : ∀ s ∈ sole, g.table t = none ∧ g.pins t s = 0 := by
    intro s hs
    obtain ⟨htable, hpins⟩ := hx.sole s hs
    exact ⟨halone htable, (h.pinned s).alone hpins.symm (Ne.symm hu)⟩
  refine ⟨hown.symm, ?_, ?_, ?_, ?_⟩
  · intro htable
    rcases hm.tables with e | e
    · rw [e]
      exact hx.tabs htable
    · exact absurd (h.table_alone e hu) htable
  · intro s id hs
    obtain ⟨hlookup, hpos⟩ := hx.page s id hs
    exact ⟨hm.lookup u s id hu hpos hlookup, hpos⟩
  · intro s hs
    obtain ⟨hnone, hzero⟩ := hmine s hs
    obtain ⟨htable, hpins⟩ := hx.sole s hs
    refine ⟨htable, ?_⟩
    rcases hm.pins s with e | e | e
    · rw [e]
      exact hpins
    · omega
    · exact absurd hnone e
  · intro s hs
    obtain ⟨hsole, hclean⟩ := hx.clean s hs
    obtain ⟨-, hzero⟩ := hmine s hsole
    refine ⟨hsole, ?_⟩
    rcases hm.dirty s with e | e
    · rw [e]
      exact hclean
    · omega

end Others

/-! ### The thread itself -/

/-- A command of thread `t`, which knows `v'` then. -/
structure Keeps (R : BufRules) (g g' : Ghost D T) (t : T) (f f' : Fields D) (v' : Outlook) : Prop where
  sound : Sound R f' g'
  mild : Mild g t f f'
  sees : Sees f' g' t v'

namespace Sees

theorem lockTable (h : Sound R f g) (hv : Sees f g t v) (ht : v.table = none) {e : Bool} {l : Latch}
    (hl : f.tableMutex.lock e = some l) : ∃ tabs, Inv R tabs ∧
      (∀ s id, v.page s = some id → tabs.pageTable.lookup id = some s) ∧
      Keeps R g { g with table := Function.update g.table t (some e) } t f { f with tableMutex := l }
        { v with table := some e, tabs := tabs } := by
  obtain ⟨own, tabs, page, sole, clean⟩ := v
  obtain rfl : own = g.own t := hv.own
  have hnone : ∀ s, s ∉ sole := by
    intro s hs
    have hex := (hv.sole s hs).1
    rw [ht] at hex
    cases hex
  refine ⟨f.tables, h.tables, fun s id hs => (hv.page s id hs).1, h.lockTable ht hl, .of_eq rfl rfl rfl, ?_⟩
  refine ⟨?_, fun _ => rfl, hv.page, ?_, ?_⟩
  · simp [Ghost.own]
  · exact fun s hs => absurd hs (hnone s)
  · exact fun s hs => absurd (hv.clean s hs).1 (hnone s)

theorem unlockTable (h : Sound R f g) (hv : Sees f g t v) (ht : v.table ≠ none)
    (hload : ∀ s, v.loading = some s → v.latch s = some true) :
    Keeps R g { g with table := Function.update g.table t none } t f { f with tableMutex := f.tableMutex.unlock }
      { v with table := none, sole := ∅, clean := ∅ } := by
  obtain ⟨own, tabs, page, sole, clean⟩ := v
  obtain rfl : own = g.own t := hv.own
  refine ⟨h.unlockTable ht hload, .of_eq rfl rfl rfl, ?_⟩
  refine ⟨?_, fun hn => absurd rfl hn, hv.page, ?_, ?_⟩
  · simp [Ghost.own]
  · simp
  · simp

theorem reposition (h : Sound R f g) (hv : Sees f g t v) (ht : v.table = some true)
    (hs : v.tabs.pageTable.lookup id = some s) :
    Keeps R g g t f { f with tables := f.tables.reposition id s } { v with tabs := v.tabs.reposition id s } := by
  obtain ⟨own, tabs, page, sole, clean⟩ := v
  obtain rfl : own = g.own t := hv.own
  obtain rfl : tabs = f.tables := hv.tabs (by rw [ht]; simp)
  refine ⟨h.reposition hs, ⟨.inr ht, fun _ _ _ _ _ hs => hs, fun _ => .inl rfl, fun _ => .inl rfl⟩, ?_⟩
  exact ⟨rfl, fun _ => rfl, hv.page, hv.sole, hv.clean⟩

/-! The pins -/

omit [DecidableEq T] in
/-- A thread that has pinned a slot alone still has when it pins or unpins it. -/
theorem sole_pins (hv : Sees f g t v) (change : ℕ → ℕ) : ∀ s' ∈ v.sole, v.table = some true ∧
    Function.update f.pins s (change (f.pins s)) s' = Function.update v.pins s (change (v.pins s)) s' := by
  intro s' hs'
  obtain ⟨htable, hpins⟩ := hv.sole s' hs'
  refine ⟨htable, ?_⟩
  by_cases e : s' = s
  · subst e
    rw [Function.update_self, Function.update_self, hpins]
  · rw [Function.update_of_ne e, Function.update_of_ne e, hpins]

theorem incPins (h : Sound R f g) (hv : Sees f g t v) (ht : v.table ≠ none)
    (hs : v.tabs.pageTable.lookup id = some s) :
    Keeps R g { g with pins := update₂ g.pins t s (g.pins t s + 1) } t f
      { f with pins := Function.update f.pins s (f.pins s + 1) }
      { v with
        pins := Function.update v.pins s (v.pins s + 1)
        page := Function.update v.page s (some (v.tabs.pages s).id) } := by
  obtain ⟨own, tabs, page, sole, clean⟩ := v
  obtain rfl : own = g.own t := hv.own
  obtain rfl : tabs = f.tables := hv.tabs ht
  refine ⟨h.incPins ht hs, ⟨.inl rfl, fun _ _ _ _ _ hs => hs, ?_, fun _ => .inl rfl⟩, ?_⟩
  · exact fun s' => .inr (.inr ht)
  refine ⟨by simp [Ghost.own, update₂_row], hv.tabs, ?_, ?_, hv.clean⟩
  · intro s' id' hs'
    by_cases e : s' = s
    · subst e
      obtain rfl : (f.tables.pages s').id = id' := by simpa using hs'
      refine ⟨(h.slot_id hs).symm ▸ hs, ?_⟩
      simp
    · obtain ⟨hlookup, hpos⟩ := hv.page s' id' (by simpa [Function.update_of_ne e] using hs')
      exact ⟨hlookup, hpos.trans_eq (Function.update_of_ne e _ _).symm⟩
  · exact hv.sole_pins (· + 1)

theorem decPins (h : Sound R f g) (hv : Sees f g t v) (hpos : 0 < v.pins s) (hlatch : v.latch s = none)
    (hsaving : v.saving ≠ some s) :
    Keeps R g { g with pins := update₂ g.pins t s (g.pins t s - 1) } t f
      { f with pins := Function.update f.pins s (f.pins s - 1) }
      { v with
        pins := Function.update v.pins s (v.pins s - 1)
        page := Function.update v.page s none } := by
  obtain ⟨own, tabs, page, sole, clean⟩ := v
  obtain rfl : own = g.own t := hv.own
  refine ⟨h.decPins hpos hlatch hsaving, ⟨.inl rfl, fun _ _ _ _ _ hs => hs, ?_, fun _ => .inl rfl⟩, ?_⟩
  · intro s'
    by_cases e : s' = s
    · subst e
      exact .inr (.inl hpos)
    · exact .inl (Function.update_of_ne e _ _)
  refine ⟨by simp [Ghost.own, update₂_row], hv.tabs, ?_, ?_, hv.clean⟩
  · intro s' id' hs'
    have hne : s' ≠ s := by
      rintro rfl
      simp at hs'
    obtain ⟨hlookup, hpos'⟩ := hv.page s' id' (by simpa [Function.update_of_ne hne] using hs')
    exact ⟨hlookup, hpos'.trans_eq (Function.update_of_ne hne _ _).symm⟩
  · exact hv.sole_pins (· - 1)

theorem setPins (h : Sound R f g) (hv : Sees f g t v) (hsole : s ∈ v.sole) (hzero : v.pins s = 0)
    (hs : v.tabs.pageTable.lookup id = some s) :
    Keeps R g { g with pins := update₂ g.pins t s 1 } t f { f with pins := Function.update f.pins s 1 }
      { v with
        pins := Function.update v.pins s 1
        page := Function.update v.page s (some (v.tabs.pages s).id) } := by
  obtain ⟨own, tabs, page, sole, clean⟩ := v
  obtain rfl : own = g.own t := hv.own
  obtain ⟨ht, hpins⟩ := hv.sole s hsole
  have htable : g.table t ≠ none := by
    rw [show g.table t = some true from ht]
    simp
  have hkeeps := incPins h hv htable hs
  have hmine : g.pins t s = 0 := hzero
  have hfields : f.pins s = 0 := hpins.trans hzero
  simp only [hmine, hfields, Nat.zero_add, Ghost.own] at hkeeps
  exact hkeeps

theorem getPins (h : Sound R f g) (hv : Sees f g t v) :
    v.pins s ≤ f.pins s ∧ (s ∈ v.sole → f.pins s = v.pins s) ∧
      Sees f g t (if v.table = some true ∧ f.pins s = v.pins s then { v with sole := insert s v.sole } else v) := by
  have hmine : v.pins s = g.pins t s := congrArg (fun o => o.pins s) hv.own
  refine ⟨hmine ▸ (h.pinned s).le t, fun hs => (hv.sole s hs).2, ?_⟩
  split
  next hsole =>
    refine ⟨hv.own, hv.tabs, hv.page, ?_, ?_⟩
    · intro s' hs'
      rcases Finset.mem_insert.mp hs' with rfl | hs'
      · exact hsole
      · exact hv.sole s' hs'
    · exact fun s' hs' => ⟨Finset.mem_insert_of_mem (hv.clean s' hs').1, (hv.clean s' hs').2⟩
  next => exact hv

/-! The dirty flag -/

omit [DecidableEq T] in
theorem getDirty (hv : Sees f g t v) : (s ∈ v.clean → f.dirty s = false) ∧
    Sees f g t (if s ∈ v.sole ∧ f.dirty s = false then { v with clean := insert s v.clean } else v) := by
  refine ⟨fun hs => (hv.clean s hs).2, ?_⟩
  split
  next hclean =>
    refine ⟨hv.own, hv.tabs, hv.page, hv.sole, ?_⟩
    intro s' hs'
    rcases Finset.mem_insert.mp hs' with rfl | hs'
    · exact hclean
    · exact hv.clean s' hs'
  next => exact hv

theorem markDirty (h : Sound R f g) (hv : Sees f g t v) (hpos : 0 < v.pins s) :
    Keeps R g { g with wrote := Function.update g.wrote t ((g.wrote t).erase s) } t f
      { f with dirty := Function.update f.dirty s true }
      { v with wrote := v.wrote.erase s, clean := v.clean.erase s } := by
  obtain ⟨own, tabs, page, sole, clean⟩ := v
  obtain rfl : own = g.own t := hv.own
  refine ⟨h.markDirty hpos, ⟨.inl rfl, fun _ _ _ _ _ hs => hs, fun _ => .inl rfl, ?_⟩, ?_⟩
  · intro s'
    by_cases e : s' = s
    · subst e
      exact .inr hpos
    · exact .inl (Function.update_of_ne e _ _)
  refine ⟨by simp [Ghost.own], hv.tabs, hv.page, hv.sole, ?_⟩
  intro s' hs'
  obtain ⟨hne, hs'⟩ := Finset.mem_erase.mp hs'
  exact ⟨(hv.clean s' hs').1, (Function.update_of_ne hne _ _).trans (hv.clean s' hs').2⟩

/-- A dirty page is marked as clean. -/
theorem markClean (h : Sound R f g) (hv : Sees f g t v) (hpos : 0 < v.pins s) (hsaving : v.saving = none)
    (hdirty : f.dirty s = true) :
    s ∉ v.clean ∧ Keeps R g { g with saving := Function.update g.saving t (some s) } t f
      { f with dirty := Function.update f.dirty s false } { v with saving := some s } := by
  obtain ⟨own, tabs, page, sole, clean⟩ := v
  obtain rfl : own = g.own t := hv.own
  have hclean : s ∉ clean := by
    intro hs
    have hfalse := (hv.clean s hs).2
    rw [hdirty] at hfalse
    cases hfalse
  refine ⟨hclean, h.markClean hpos hsaving, ⟨.inl rfl, fun _ _ _ _ _ hs => hs, fun _ => .inl rfl, ?_⟩, ?_⟩
  · intro s'
    by_cases e : s' = s
    · subst e
      exact .inr hpos
    · exact .inl (Function.update_of_ne e _ _)
  refine ⟨by simp [Ghost.own], hv.tabs, hv.page, hv.sole, ?_⟩
  intro s' hs'
  have hne : s' ≠ s := by
    rintro rfl
    exact hclean hs'
  exact ⟨(hv.clean s' hs').1, (Function.update_of_ne hne _ _).trans (hv.clean s' hs').2⟩

/-! The latches and the data -/

theorem lockPage (h : Sound R f g) (hv : Sees f g t v) (ht : v.latch s = none) (hpos : 0 < v.pins s) {e : Bool}
    {l : Latch} (hl : (f.mutex s).lock e = some l) :
    Keeps R g { g with latch := update₂ g.latch t s (some e) } t f { f with mutex := Function.update f.mutex s l }
      { v with latch := Function.update v.latch s (some e) } := by
  obtain ⟨own, tabs, page, sole, clean⟩ := v
  obtain rfl : own = g.own t := hv.own
  refine ⟨h.lockPage ht hpos hl, .of_eq rfl rfl rfl, ?_⟩
  exact ⟨by simp [Ghost.own, update₂_row], hv.tabs, hv.page, hv.sole, hv.clean⟩

theorem unlockPage (h : Sound R f g) (hv : Sees f g t v) (ht : v.latch s ≠ none) (hwrote : s ∉ v.wrote)
    (hrefs : ∀ id, v.refs id ≠ some s) (hload : v.loading ≠ some s) :
    Keeps R g { g with latch := update₂ g.latch t s none } t f
      { f with mutex := Function.update f.mutex s (f.mutex s).unlock }
      { v with latch := Function.update v.latch s none } := by
  obtain ⟨own, tabs, page, sole, clean⟩ := v
  obtain rfl : own = g.own t := hv.own
  refine ⟨h.unlockPage ht hwrote hrefs hload, .of_eq rfl rfl rfl, ?_⟩
  exact ⟨by simp [Ghost.own, update₂_row], hv.tabs, hv.page, hv.sole, hv.clean⟩

theorem savePage (h : Sound R f g) (hv : Sees f g t v) (ht : v.latch s = some false) (hs : v.page s = some id)
    (hload : v.loading ≠ some s) (hsaving : v.saving = none ∨ v.saving = some s) :
    Keeps R g { g with saving := Function.update g.saving t none } t f
      { f with blocks := Function.update f.blocks (f.tables.pages s).id (f.data s) } { v with saving := none } := by
  obtain ⟨own, tabs, page, sole, clean⟩ := v
  obtain rfl : own = g.own t := hv.own
  refine ⟨h.savePage ht (hv.page s id hs).1 hload hsaving, .of_eq rfl rfl rfl, ?_⟩
  exact ⟨by simp [Ghost.own], hv.tabs, hv.page, hv.sole, hv.clean⟩

theorem loadPage (h : Sound R f g) (hv : Sees f g t v) (ht : v.loading = some s) (hs : v.page s = some id) :
    Keeps R g { g with loading := Function.update g.loading t none } t f
      { f with data := Function.update f.data s (f.blocks id) } { v with loading := none } := by
  obtain ⟨own, tabs, page, sole, clean⟩ := v
  obtain rfl : own = g.own t := hv.own
  refine ⟨h.loadPage ht (hv.page s id hs).1, .of_eq rfl rfl rfl, ?_⟩
  exact ⟨by simp [Ghost.own], hv.tabs, hv.page, hv.sole, hv.clean⟩

theorem writePage (h : Sound R f g) (hv : Sees f g t v) (ht : v.latch s = some true) (href : v.refs id = some s)
    (hload : v.loading ≠ some s) (d : D) :
    Keeps R g { g with
        mem := Function.update g.mem (f.tables.pages s).id (some d)
        wrote := Function.update g.wrote t (insert s (g.wrote t)) } t f
      { f with data := Function.update f.data s d } { v with wrote := insert s v.wrote } := by
  obtain ⟨own, tabs, page, sole, clean⟩ := v
  obtain rfl : own = g.own t := hv.own
  refine ⟨h.writePage ht href hload d, .of_eq rfl rfl rfl, ?_⟩
  exact ⟨by simp [Ghost.own], hv.tabs, hv.page, hv.sole, hv.clean⟩

/-! A page gets its slot -/

theorem own_take : (g.take t id s).own t =
    { g.own t with loading := if (g.own t).pinning = some (id, true) then none else some s } := by
  simp only [Ghost.own, Ghost.take, Function.update_self]
  congr

theorem lookup_takeFreeSlot {tabs : PageBuffer Unit} {id' : PageId} (hne : id' ≠ id) :
    (tabs.takeFreeSlot id s).pageTable.lookup id' = tabs.pageTable.lookup id' := by
  simp [PageBuffer.takeFreeSlot, AList.lookup_insert_ne hne]

theorem lookup_replace {tabs : PageBuffer Unit} {q : Victims} {key id' : PageId} (hkey : id' ≠ key) (hne : id' ≠ id) :
    (tabs.replace q key id s).pageTable.lookup id' = tabs.pageTable.lookup id' := by
  cases q <;>
    simp [PageBuffer.replace, PageBuffer.setQueue, PageBuffer.modifyPage, AList.lookup_insert_ne hne,
      AList.lookup_erase_ne hkey]

theorem takeFreeSlot (h : Sound R f g) (hv : Sees f g t v) (ht : v.table = some true) (hload : v.loading = none)
    {skipLoad : Bool} (hpinning : v.pinning = some (id, skipLoad)) (hnone : v.tabs.pageTable.lookup id = none)
    (hs : s ∈ v.tabs.freeSlots) :
    v.pins s = 0 ∧ Keeps R g (g.take t id s) t f { f with tables := f.tables.takeFreeSlot id s }
      { v.taken id s (v.tabs.takeFreeSlot id s) with sole := insert s v.sole, clean := insert s v.clean } := by
  obtain ⟨own, tabs, page, sole, clean⟩ := v
  obtain rfl : own = g.own t := hv.own
  obtain rfl : tabs = f.tables := hv.tabs (by rw [ht]; simp)
  obtain ⟨hpins, hdirty⟩ := h.free s hs
  have hzero : g.pins t s = 0 := by
    have hle := (h.pinned s).le t
    omega
  -- the other pages stay where they are
  have hkeep : ∀ id' s', f.tables.pageTable.lookup id' = some s' →
      (f.tables.takeFreeSlot id s).pageTable.lookup id' = some s' := by
    intro id' s' hs'
    rw [lookup_takeFreeSlot, hs']
    rintro rfl
    rw [hnone] at hs'
    cases hs'
  refine ⟨hzero, h.takeFreeSlot ht hload hpinning hnone hs, ⟨.inr ht, fun _ s' id' _ _ => hkeep id' s',
    fun _ => .inl rfl, fun _ => .inl rfl⟩, ?_⟩
  refine ⟨own_take.symm, fun _ => rfl, ?_, ?_, ?_⟩
  · exact fun s' id' hs' => ⟨hkeep id' s' (hv.page s' id' hs').1, (hv.page s' id' hs').2⟩
  · intro s' hs'
    rcases Finset.mem_insert.mp hs' with rfl | hs'
    · exact ⟨ht, hpins.trans hzero.symm⟩
    · exact hv.sole s' hs'
  · intro s' hs'
    rcases Finset.mem_insert.mp hs' with rfl | hs'
    · exact ⟨Finset.mem_insert_self _ _, hdirty⟩
    · exact ⟨Finset.mem_insert_of_mem (hv.clean s' hs').1, (hv.clean s' hs').2⟩

theorem replace (h : Sound R f g) (hv : Sees f g t v) (ht : v.table = some true) (hload : v.loading = none)
    {skipLoad : Bool} (hpinning : v.pinning = some (id, skipLoad)) (hnone : v.tabs.pageTable.lookup id = none)
    {q : Victims} {key : PageId} (hkey : (v.tabs.queue q).Has key s) (hclean : s ∈ v.clean) (hpos : 0 < v.pins s)
    (hsaving : v.saving ≠ some s) (hwrote : s ∉ v.wrote) (hrefs : ∀ id', v.refs id' ≠ some s) :
    Keeps R g (g.take t id s) t f { f with tables := f.tables.replace q key id s }
      { v.taken id s (v.tabs.replace q key id s) with page := Function.update v.page s (some id) } := by
  obtain ⟨own, tabs, page, sole, clean⟩ := v
  obtain rfl : own = g.own t := hv.own
  obtain rfl : tabs = f.tables := hv.tabs (by rw [ht]; simp)
  obtain ⟨hsole, hdirty⟩ := hv.clean s hclean
  have hpins : f.pins s = g.pins t s := (hv.sole s hsole).2
  have hslot := h.tables.lookup_of_has hkey
  -- the pages in other slots stay where they are
  have hkeep : ∀ id' s', s' ≠ s → f.tables.pageTable.lookup id' = some s' →
      (f.tables.replace q key id s).pageTable.lookup id' = some s' := by
    intro id' s' hne hs'
    rw [lookup_replace, hs']
    · rintro rfl
      exact hne (Option.some.inj (hs'.symm.trans hslot))
    · rintro rfl
      rw [hnone] at hs'
      cases hs'
  refine ⟨h.replace ht hload hpinning hnone hkey hpins hdirty hsaving hwrote hrefs, ⟨.inr ht, ?_,
    fun _ => .inl rfl, fun _ => .inl rfl⟩, ?_⟩
  · intro u s' id' hu hpos' hs'
    refine hkeep id' s' ?_ hs'
    rintro rfl
    have hzero := (h.pinned s').alone hpins.symm hu
    omega
  refine ⟨own_take.symm, fun _ => rfl, ?_, hv.sole, hv.clean⟩
  intro s' id' hs'
  by_cases e : s' = s
  · subst e
    obtain rfl : id = id' := by simpa using hs'
    refine ⟨?_, hpos⟩
    cases q <;> simp [PageBuffer.replace, PageBuffer.setQueue, PageBuffer.modifyPage]
  · obtain ⟨hlookup, hpos'⟩ := hv.page s' id' (by simpa [Function.update_of_ne e] using hs')
    exact ⟨hkeep id' s' e hlookup, hpos'⟩

end Sees

/-! ### Steps of the threads -/

theorem Keeps.refl (h : Sound R f g) (hv : Sees f g t v) : Keeps R g g t f f v := ⟨h, .of_eq rfl rfl rfl, hv⟩

/-- What the thread that begins an operation knows. -/
theorem Sees.enter (h : Sound R f g) (hv : Sees f g t v) {op : ClientOp D} (hop : g.Allowed t op s) :
    ∃ v', Outlook.step R ℕ (.inr (.enter op)) v s v' ∧ Keeps R g (g.enter t op) t f f v' := by
  obtain ⟨own, tabs, page, sole, clean⟩ := v
  obtain rfl : own = g.own t := hv.own
  have hsound := h.enter hop
  cases op with
  | createPage => exact ⟨_, rfl, .refl h hv⟩
  | pinPage id mode skipLoad =>
    refine ⟨_, ⟨hop.1, rfl⟩, hsound, .of_eq rfl rfl rfl, ?_⟩
    exact ⟨by simp [Ghost.own, Ghost.enter], hv.tabs, hv.page, hv.sole, hv.clean⟩
  | unpinPage id dirty =>
    refine ⟨_, ⟨hop.1, hop.2, rfl⟩, hsound, .of_eq rfl rfl rfl, ?_⟩
    exact ⟨by simp [Ghost.own, Ghost.enter, update₂_row], hv.tabs, hv.page, hv.sole, hv.clean⟩
  | read id => exact ⟨_, ⟨hop, rfl⟩, .refl h hv⟩
  | write id d => exact ⟨_, ⟨hop.1, hop.2, rfl⟩, .refl h hv⟩

theorem Sees.leave (h : Sound R f g) (hv : Sees f g t v) {skipLoad : Bool} (hpinning : v.pinning = some (id, skipLoad))
    (hs : v.page s = some id) (ht : v.latch s ≠ none) (hload : v.loading ≠ some s) :
    Keeps R g (g.leave t id s) t f f
      { v with refs := Function.update v.refs id (some s), pinning := none } := by
  obtain ⟨own, tabs, page, sole, clean⟩ := v
  obtain rfl : own = g.own t := hv.own
  refine ⟨h.leave hpinning (hv.page s id hs).1 ht hload, .of_eq rfl rfl rfl, ?_⟩
  exact ⟨by simp [Ghost.own, Ghost.leave, update₂_row], hv.tabs, hv.page, hv.sole, hv.clean⟩

/-- What the thread that issues a command of the buffer knows. -/
theorem Sees.command {b b' : PageBuffer D} (h : Sound R b.fields g) (hv : Sees b.fields g t v) {β : Type}
    {c : BufCmd D β} {a : β} (hc : Outlook.Proper β (.inl c) v) (hb : PageBuffer.handler R β c b = .ok a b') :
    ∃ v', Outlook.step R β (.inl c) v a v' ∧ Keeps R g (g.after t b c a) t b.fields b'.fields v' := by
  have hf := handler_fields hb
  have htabs : v.table ≠ none → v.tabs = b.fields.tables := hv.tabs
  cases c with
  | lockTable e =>
    obtain ⟨l, hl, hf⟩ := hf
    rw [hf]
    obtain ⟨tabs, htables, hpages, hkeeps⟩ := hv.lockTable h hc hl
    exact ⟨_, ⟨tabs, htables, hpages, rfl⟩, hkeeps⟩
  | unlockTable e =>
    rw [show b'.fields = _ from hf]
    exact ⟨_, rfl, hv.unlockTable h hc.1 hc.2⟩
  | findPage id =>
    obtain ⟨rfl, hf⟩ := hf
    rw [hf]
    exact ⟨v, ⟨by rw [htabs hc], rfl⟩, .refl h hv⟩
  | hasSpace =>
    obtain ⟨rfl, hf⟩ := hf
    rw [hf]
    exact ⟨v, ⟨by rw [htabs hc], rfl⟩, .refl h hv⟩
  | readQueue q =>
    obtain ⟨rfl, hf⟩ := hf
    rw [hf]
    exact ⟨v, ⟨by rw [htabs hc], rfl⟩, .refl h hv⟩
  | reposition id index =>
    rw [show b'.fields = _ from hf]
    exact ⟨_, rfl, hv.reposition h hc.1 hc.2⟩
  | takeFreeSlot id =>
    obtain ⟨rfl, hf⟩ := hf
    obtain ⟨ht, hload, hnone, hfree, skipLoad, hpinning⟩ := hc
    rw [hf]
    have htabs := htabs (by rw [ht]; simp)
    obtain ⟨hzero, hkeeps⟩ := hv.takeFreeSlot h ht hload hpinning hnone (R.slot_mem _ hfree)
    rw [htabs] at hzero hkeeps
    exact ⟨_, ⟨hzero, by rw [htabs]⟩, hkeeps⟩
  | replace q key id index =>
    obtain ⟨ht, hload, hnone, hkey, hclean, hpos, hsaving, hwrote, hrefs, skipLoad, hpinning⟩ := hc
    rw [show b'.fields = _ from hf]
    exact ⟨_, rfl, hv.replace h ht hload hpinning hnone hkey hclean hpos hsaving hwrote hrefs⟩
  | incPins index =>
    obtain ⟨rfl, hf⟩ := hf
    obtain ⟨ht, id, hs⟩ := hc
    rw [hf]
    exact ⟨_, ⟨Nat.succ_pos _, rfl⟩, hv.incPins h ht hs⟩
  | decPins index =>
    rw [show b'.fields = _ from hf]
    exact ⟨_, rfl, hv.decPins h hc.1 hc.2.1 hc.2.2⟩
  | getPins index =>
    obtain ⟨rfl, hf⟩ := hf
    rw [hf]
    obtain ⟨hle, hsole, hsees⟩ := hv.getPins h (s := index)
    exact ⟨_, ⟨hle, hsole, rfl⟩, h, .of_eq rfl rfl rfl, hsees⟩
  | setPins index pins =>
    obtain ⟨rfl, hsole, hzero, id, hs⟩ := hc
    rw [show b'.fields = _ from hf]
    exact ⟨_, rfl, hv.setPins h hsole hzero hs⟩
  | getDirty index =>
    obtain ⟨rfl, hf⟩ := hf
    rw [hf]
    obtain ⟨hclean, hsees⟩ := hv.getDirty (s := index)
    exact ⟨_, ⟨hclean, rfl⟩, h, .of_eq rfl rfl rfl, hsees⟩
  | setDirty index dirty =>
    rw [show b'.fields = _ from hf]
    cases dirty with
    | true => exact ⟨_, rfl, hv.markDirty h hc.1⟩
    | false =>
      cases hd : b.fields.dirty index with
      | true =>
        obtain ⟨hclean, hkeeps⟩ := hv.markClean h hc.1 (hc.2 rfl) hd
        refine ⟨_, .inr ⟨hclean, rfl⟩, ?_⟩
        simpa only [Ghost.after, show (b.pages index).dirty = true from hd, if_true] using hkeeps
      | false =>
        refine ⟨v, .inl rfl, ?_⟩
        have hsame : Function.update b.fields.dirty index false = b.fields.dirty := by
          rw [← hd, Function.update_eq_self]
        simp only [Ghost.after, show (b.pages index).dirty = false from hd, hsame]
        exact .refl h hv
  | lockPage index e =>
    obtain ⟨l, hl, hf⟩ := hf
    rw [hf]
    exact ⟨_, rfl, hv.lockPage h hc.1 hc.2 hl⟩
  | unlockPage index =>
    rw [show b'.fields = _ from hf]
    exact ⟨_, rfl, hv.unlockPage h hc.1 hc.2.1 hc.2.2.1 hc.2.2.2⟩
  | savePage index =>
    obtain ⟨ht, ⟨id, hs⟩, hload, hsaving⟩ := hc
    rw [show b'.fields = _ from hf]
    exact ⟨_, rfl, hv.savePage h ht hs hload hsaving⟩
  | loadPage id index =>
    rw [show b'.fields = _ from hf]
    exact ⟨_, rfl, hv.loadPage h hc.1 hc.2.2⟩
  | writePage index d =>
    obtain ⟨ht, ⟨id, href⟩, hload⟩ := hc
    rw [show b'.fields = _ from hf]
    exact ⟨_, rfl, hv.writePage h ht href hload d⟩
  | readPage index =>
    rw [hf.2]
    exact ⟨v, rfl, .refl h hv⟩
  | raise e => exact a.elim
  | _ =>
    rw [show b'.fields = b.fields from hf]
    exact ⟨v, rfl, .refl h hv⟩

namespace Sharing

variable {w w' : Sharing D T}

/-- A step of a thread, which knows `v'` then. -/
theorem step_keeps (h : Sound R w.buf.fields w.ghost) (hv : Sees w.buf.fields w.ghost t v) {β : Type}
    {c : ShareCmd D β} {a : β} (hc : Outlook.Proper β c v) (hs : step R t β c w a w') :
    ∃ v', Outlook.step R β c v a v' ∧ Keeps R w.ghost w'.ghost t w.buf.fields w'.buf.fields v' := by
  cases c with
  | inl c =>
    obtain ⟨b, hb, rfl⟩ := hs
    exact hv.command h hc hb
  | inr c =>
    cases c with
    | enter op =>
      obtain ⟨hop, rfl⟩ := hs
      exact hv.enter h hop
    | leave id index =>
      obtain rfl := hs
      obtain ⟨hpage, hlatch, hload, skipLoad, hpinning⟩ := hc
      exact ⟨_, rfl, hv.leave h hpinning hpage hlatch hload⟩

theorem step_own (hu : u ≠ t) {β : Type} {c : ShareCmd D β} {a : β} (hs : step R t β c w a w') :
    w'.ghost.own u = w.ghost.own u := by
  cases c with
  | inl c =>
    obtain ⟨b, -, rfl⟩ := hs
    exact after_own hu
  | inr c =>
    cases c with
    | enter op =>
      obtain ⟨-, rfl⟩ := hs
      exact enter_own hu
    | leave id index =>
      obtain rfl := hs
      exact leave_own hu

/-- Each thread can be followed alone. -/
theorem views (R : BufRules) (Done : Outlook → Prop) :
    Pool.Views (rules R : PoolRules (ClientOp D) (ShareCmd D) (Sharing D T) T Unit)
      (fun w => Sound R w.buf.fields w.ghost) (fun t w v => Sees w.buf.fields w.ghost t v) (Outlook.step R)
      Outlook.Proper (fun _ v => v) Done where
  own h hv hc hs := by
    obtain ⟨v', hstep, hkeeps⟩ := step_keeps h hv hc hs
    exact ⟨hkeeps.sound, v', hstep, hkeeps.sees⟩
  others hu h hv hc hs hx := by
    obtain ⟨v', -, hkeeps⟩ := step_keeps h hv hc hs
    exact hx.others h hu hkeeps.mild (step_own hu hs)
  enter h hv := ⟨h, hv⟩
  enter_others _ hv := hv
  failed _ _ hr := hr.elim

end Sharing

end BEpsilon.Buffer
