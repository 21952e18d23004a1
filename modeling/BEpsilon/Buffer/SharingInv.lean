import BEpsilon.Buffer.Sharing

/-!
# BEpsilon.Buffer.SharingInv — what holds of a buffer that threads share

`Sound` is the invariant of the buffer and of what its threads hold: the containers agree with each other, the
mutexes and the counters with the threads, and the contents of the pages with what was last written to them.  The
content of a page that is not in memory is on the disk; that of a page in memory is in its slot, unless a thread has
still to load it, and on the disk as well, unless the slot is dirty or a thread has still to save it or to mark it as
dirty.
-/

namespace BEpsilon.Buffer

open PageBuffer

variable {D T : Type} [DecidableEq T]

structure Sound (R : BufRules) (f : Fields D) (g : Ghost D T) : Prop where
  tables : Inv R f.tables
  plain : ∀ s, (f.tables.pages s).pins = 0
  table_held : HeldBy f.tableMutex.exclusive f.tableMutex.shared g.table
  latch_held : ∀ s, HeldBy (f.mutex s).exclusive (f.mutex s).shared fun t => g.latch t s
  pinned : ∀ s, Counts (fun t => g.pins t s) (f.pins s)
  free : ∀ s ∈ f.tables.freeSlots, f.pins s = 0 ∧ f.dirty s = false
  latch_pins : ∀ t s, g.latch t s ≠ none → 0 < g.pins t s
  ref : ∀ t id s, g.refs t id = some s → f.tables.pageTable.lookup id = some s ∧ g.latch t s ≠ none
  ref_loaded : ∀ t id s, g.refs t id = some s → g.loading t ≠ some s
  wrote : ∀ t, ∀ s ∈ g.wrote t, g.latch t s = some true
  saving : ∀ t s, g.saving t = some s → 0 < g.pins t s
  loading : ∀ t s, g.loading t = some s →
    g.latch t s = some true ∨ g.table t = some true ∧ ∀ u, u ≠ t → g.pins u s = 0
  absent : ∀ id d, g.mem id = some d → f.tables.pageTable.lookup id = none → f.blocks id = d
  data : ∀ id d s, g.mem id = some d → f.tables.pageTable.lookup id = some s → (∀ t, g.loading t ≠ some s) →
    f.data s = d
  saved : ∀ id d s, g.mem id = some d → f.tables.pageTable.lookup id = some s →
    f.dirty s = true ∨ f.blocks id = d ∨ (∃ t, g.saving t = some s) ∨ ∃ t, s ∈ g.wrote t
  unread : ∀ t s id d, g.loading t = some s → f.tables.pageTable.lookup id = some s → g.mem id = some d →
    f.blocks id = d
  fresh : ∀ t id, g.pinning t = some (id, true) →
    g.mem id = none ∧ ∀ u, g.refs u id = none ∧ (u ≠ t → ∀ b, g.pinning u ≠ some (id, b))

section Mutex

variable {l l' : Latch} {e : Bool} {mode : T → Option Bool} {t : T}

/-- `lock()` and `lock_shared()` -/
theorem heldBy_lock (h : HeldBy l.exclusive l.shared mode) (ht : mode t = none) (hl : l.lock e = some l') :
    HeldBy l'.exclusive l'.shared (Function.update mode t (some e)) := by
  obtain ⟨exclusive, shared⟩ := l
  cases exclusive with
  | true => simp [Latch.lock] at hl
  | false =>
    cases e with
    | true =>
      obtain ⟨rfl, rfl⟩ : shared = 0 ∧ ⟨true, shared⟩ = l' := by simpa [Latch.lock] using hl
      exact h.lock t
    | false =>
      obtain rfl : ⟨false, shared + 1⟩ = l' := by simpa [Latch.lock] using hl
      exact h.share ht

/-- `unlock()` and `unlock_shared()` -/
theorem heldBy_unlock (h : HeldBy l.exclusive l.shared mode) (ht : mode t ≠ none) :
    HeldBy l.unlock.exclusive l.unlock.shared (Function.update mode t none) := by
  have hr := h.release ht
  obtain ⟨exclusive, shared⟩ := l
  cases exclusive with
  | true => exact hr
  | false => exact hr

end Mutex

section Columns

variable {S α : Type} [DecidableEq S] {x : T → S → α} {t u : T} {s s' : S} {a : α}

@[simp] theorem update₂_self : update₂ x t s a t s = a := by simp [update₂]

theorem update₂_thread (h : u ≠ t) : update₂ x t s a u = x u := by simp [update₂, h]

theorem update₂_slot (h : s' ≠ s) : update₂ x t s a u s' = x u s' := by
  by_cases hu : u = t
  · subst hu
    simp [update₂, h]
  · rw [update₂_thread hu]

theorem update₂_row : update₂ x t s a t = Function.update (x t) s a := by simp [update₂]

/-- Only what the thread has of the slot changes. -/
theorem update₂_or (x : T → S → α) (t : T) (s : S) (a : α) (u : T) (s' : S) :
    u = t ∧ s' = s ∨ update₂ x t s a u s' = x u s' := by
  by_cases hs : s' = s
  · by_cases hu : u = t
    · exact .inl ⟨hu, hs⟩
    · exact .inr (by rw [update₂_thread hu])
  · exact .inr (update₂_slot hs)

/-- What holds of each slot and of what the threads have of it. -/
theorem update₂_column {β : Type} {P : (T → α) → β → Prop} {y : S → β} {b : β} (h : ∀ s', P (fun u => x u s') (y s'))
    (hs : P (Function.update (fun u => x u s) t a) b) (s' : S) :
    P (fun u => update₂ x t s a u s') (Function.update y s b s') := by
  by_cases e : s' = s
  · subst e
    have hcolumn : (fun u => update₂ x t s' a u s') = Function.update (fun u => x u s') t a := by
      ext u
      by_cases hu : u = t
      · subst hu
        rw [update₂_self, Function.update_self]
      · rw [update₂_thread hu, Function.update_of_ne hu]
    rw [hcolumn, Function.update_self]
    exact hs
  · have hcolumn : (fun u => update₂ x t s a u s') = fun u => x u s' := by
      ext u
      exact update₂_slot e
    rw [hcolumn, Function.update_of_ne e]
    exact h s'

end Columns

namespace Sound

variable {R : BufRules} {f : Fields D} {g : Ghost D T} {t u : T} {s : ℕ} {id : PageId}

/-- A pinned slot belongs to a page. -/
theorem not_free (h : Sound R f g) (ht : 0 < g.pins t s) : s ∉ f.tables.freeSlots := by
  intro hs
  have hle := (h.pinned s).le t
  have hzero := (h.free s hs).1
  omega

/-- The id in a slot. -/
theorem slot_id (h : Sound R f g) (hs : f.tables.pageTable.lookup id = some s) : (f.tables.pages s).id = id :=
  h.tables.page_id id s hs

/-- Nobody has the table while a thread has it exclusively. -/
theorem table_alone (h : Sound R f g) (ht : g.table t = some true) (hu : u ≠ t) : g.table u = none :=
  h.table_held.alone ht hu

theorem latch_alone (h : Sound R f g) (ht : g.latch t s = some true) (hu : u ≠ t) : g.latch u s = none :=
  (h.latch_held s).alone (t := t) ht hu

/-- A thread that has latched a slot, and is not loading it, finds it loaded. -/
theorem loaded (h : Sound R f g) (ht : g.latch t s ≠ none) (hl : g.loading t ≠ some s) (u : T) :
    g.loading u ≠ some s := by
  intro hu
  by_cases e : u = t
  · exact hl (e ▸ hu)
  · rcases h.loading u s hu with hlatch | ⟨-, hpins⟩
    · exact ht (h.latch_alone hlatch (Ne.symm e))
    · have hpos := h.latch_pins t s ht
      have hzero := hpins t (Ne.symm e)
      omega

/-! ### The table lock -/

theorem lockTable (h : Sound R f g) (ht : g.table t = none) {e : Bool} {l : Latch}
    (hl : f.tableMutex.lock e = some l) :
    Sound R { f with tableMutex := l } { g with table := Function.update g.table t (some e) } :=
  { h with
    table_held := heldBy_lock h.table_held ht hl
    loading := by
      intro u s hu
      refine (h.loading u s hu).imp_right fun hload => ⟨?_, hload.2⟩
      have hne : u ≠ t := by
        rintro rfl
        rw [ht] at hload
        cases hload.1
      exact (Function.update_of_ne hne _ _).trans hload.1 }

theorem unlockTable (h : Sound R f g) (ht : g.table t ≠ none)
    (hload : ∀ s, g.loading t = some s → g.latch t s = some true) :
    Sound R { f with tableMutex := f.tableMutex.unlock } { g with table := Function.update g.table t none } :=
  { h with
    table_held := heldBy_unlock h.table_held ht
    loading := by
      intro u s hu
      by_cases e : u = t
      · subst e
        exact .inl (hload s hu)
      · exact (h.loading u s hu).imp_right fun hload => ⟨(Function.update_of_ne e _ _).trans hload.1, hload.2⟩ }

/-! ### Pins -/

/-- Free slots are as they were when another one changes. -/
theorem free_pins (h : Sound R f g) (hs : s ∉ f.tables.freeSlots) (n : ℕ) :
    ∀ s' ∈ f.tables.freeSlots, Function.update f.pins s n s' = 0 ∧ f.dirty s' = false := by
  intro s' hs'
  have hne : s' ≠ s := ne_of_mem_of_not_mem hs' hs
  rw [Function.update_of_ne hne]
  exact h.free s' hs'

theorem free_dirty (h : Sound R f g) (hs : s ∉ f.tables.freeSlots) (b : Bool) :
    ∀ s' ∈ f.tables.freeSlots, f.pins s' = 0 ∧ Function.update f.dirty s b s' = false := by
  intro s' hs'
  have hne : s' ≠ s := ne_of_mem_of_not_mem hs' hs
  rw [Function.update_of_ne hne]
  exact h.free s' hs'

theorem incPins (h : Sound R f g) (ht : g.table t ≠ none) (hs : f.tables.pageTable.lookup id = some s) :
    Sound R { f with pins := Function.update f.pins s (f.pins s + 1) }
      { g with pins := update₂ g.pins t s (g.pins t s + 1) } := by
  have hle : ∀ u s', g.pins u s' ≤ update₂ g.pins t s (g.pins t s + 1) u s' := by
    intro u s'
    rcases update₂_or g.pins t s (g.pins t s + 1) u s' with ⟨rfl, rfl⟩ | e
    · rw [update₂_self]
      omega
    · rw [e]
  exact { h with
    pinned := update₂_column h.pinned ((h.pinned s).take t)
    free := h.free_pins (h.tables.not_free hs) _
    latch_pins := fun u s' hu => (h.latch_pins u s' hu).trans_le (hle u s')
    saving := fun u s' hu => (h.saving u s' hu).trans_le (hle u s')
    loading := by
      intro u s' hu
      refine (h.loading u s' hu).imp_right fun hload => ⟨hload.1, fun v hv => ?_⟩
      -- the loader has the table exclusively, so it is the thread itself
      have hut : u = t := by
        by_contra hne
        exact ht (h.table_alone hload.1 (Ne.symm hne))
      show update₂ g.pins t s (g.pins t s + 1) v s' = 0
      rw [update₂_thread (hut ▸ hv)]
      exact hload.2 v hv }

theorem decPins (h : Sound R f g) (ht : 0 < g.pins t s) (hlatch : g.latch t s = none) (hsaving : g.saving t ≠ some s) :
    Sound R { f with pins := Function.update f.pins s (f.pins s - 1) }
      { g with pins := update₂ g.pins t s (g.pins t s - 1) } := by
  have hpins := update₂_or g.pins t s (g.pins t s - 1)
  exact { h with
    pinned := update₂_column h.pinned ((h.pinned s).give ht)
    free := h.free_pins (h.not_free ht) _
    latch_pins := by
      intro u s' hu
      show 0 < update₂ g.pins t s (g.pins t s - 1) u s'
      rcases hpins u s' with ⟨rfl, rfl⟩ | e
      · exact absurd hlatch hu
      · rw [e]
        exact h.latch_pins u s' hu
    saving := by
      intro u s' hu
      show 0 < update₂ g.pins t s (g.pins t s - 1) u s'
      rcases hpins u s' with ⟨rfl, rfl⟩ | e
      · exact absurd hu hsaving
      · rw [e]
        exact h.saving u s' hu
    loading := by
      intro u s' hu
      refine (h.loading u s' hu).imp_right fun hload => ⟨hload.1, fun v hv => ?_⟩
      have hzero := hload.2 v hv
      show update₂ g.pins t s (g.pins t s - 1) v s' = 0
      rcases hpins v s' with ⟨rfl, rfl⟩ | e
      · omega
      · rw [e, hzero] }

/-- The first pin of a slot that was just taken. -/
theorem setPins (h : Sound R f g) (ht : g.table t ≠ none) (hs : f.tables.pageTable.lookup id = some s)
    (hzero : f.pins s = 0) :
    Sound R { f with pins := Function.update f.pins s 1 } { g with pins := update₂ g.pins t s 1 } := by
  have hmine := (h.pinned s).le t
  have hinc := h.incPins ht hs
  rw [hzero] at hmine hinc
  rwa [Nat.le_zero.mp hmine] at hinc

/-! ### Latches -/

theorem lockPage (h : Sound R f g) (ht : g.latch t s = none) (hpins : 0 < g.pins t s) {e : Bool} {l : Latch}
    (hl : (f.mutex s).lock e = some l) :
    Sound R { f with mutex := Function.update f.mutex s l } { g with latch := update₂ g.latch t s (some e) } := by
  have hlatch := update₂_or g.latch t s (some e)
  -- what a thread has latched, it has latched still
  have hkeep : ∀ u s', g.latch u s' ≠ none → update₂ g.latch t s (some e) u s' = g.latch u s' := by
    intro u s' hu
    rcases hlatch u s' with ⟨rfl, rfl⟩ | e
    · exact absurd ht hu
    · exact e
  exact { h with
    latch_held := update₂_column (P := fun mode (l : Latch) => HeldBy l.exclusive l.shared mode) h.latch_held
      (heldBy_lock (h.latch_held s) ht hl)
    latch_pins := by
      intro u s' hu
      rcases hlatch u s' with ⟨rfl, rfl⟩ | e
      · exact hpins
      · exact h.latch_pins u s' (e ▸ hu)
    ref := by
      intro u id s' hu
      obtain ⟨hid, hheld⟩ := h.ref u id s' hu
      exact ⟨hid, (hkeep u s' hheld).trans_ne hheld⟩
    wrote := by
      intro u s' hu
      have hheld := h.wrote u s' hu
      exact (hkeep u s' (by simp [hheld])).trans hheld
    loading := by
      intro u s' hu
      refine (h.loading u s' hu).imp_left fun hheld => ?_
      exact (hkeep u s' (by simp [hheld])).trans hheld }

theorem unlockPage (h : Sound R f g) (ht : g.latch t s ≠ none) (hwrote : s ∉ g.wrote t)
    (hrefs : ∀ id, g.refs t id ≠ some s) (hload : g.loading t ≠ some s) :
    Sound R { f with mutex := Function.update f.mutex s (f.mutex s).unlock }
      { g with latch := update₂ g.latch t s none } := by
  have hlatch := update₂_or g.latch t s none
  exact { h with
    latch_held := update₂_column (P := fun mode (l : Latch) => HeldBy l.exclusive l.shared mode) h.latch_held
      (heldBy_unlock (h.latch_held s) ht)
    latch_pins := by
      intro u s' hu
      rcases hlatch u s' with ⟨rfl, rfl⟩ | e
      · exact h.latch_pins u s' ht
      · exact h.latch_pins u s' (e ▸ hu)
    ref := by
      intro u id s' hu
      refine ⟨(h.ref u id s' hu).1, ?_⟩
      rcases hlatch u s' with ⟨rfl, rfl⟩ | e
      · exact absurd hu (hrefs id)
      · exact e.trans_ne (h.ref u id s' hu).2
    wrote := by
      intro u s' hu
      rcases hlatch u s' with ⟨rfl, rfl⟩ | e
      · exact absurd hu hwrote
      · exact e.trans (h.wrote u s' hu)
    loading := by
      intro u s' hu
      refine (h.loading u s' hu).imp_left fun hheld => ?_
      rcases hlatch u s' with ⟨rfl, rfl⟩ | e
      · exact absurd hu hload
      · exact e.trans hheld }

/-! ### The dirty flags -/

/-- The page is marked as dirty. -/
theorem markDirty (h : Sound R f g) (ht : 0 < g.pins t s) :
    Sound R { f with dirty := Function.update f.dirty s true }
      { g with wrote := Function.update g.wrote t ((g.wrote t).erase s) } :=
  { h with
    free := h.free_dirty (h.not_free ht) _
    wrote := by
      intro u s' hu
      refine h.wrote u s' ?_
      by_cases hut : u = t
      · subst hut
        exact Finset.mem_of_mem_erase (by simpa using hu)
      · simpa [Function.update_of_ne hut] using hu
    saved := by
      intro id d s' hd hs'
      show Function.update f.dirty s true s' = true ∨ _ ∨ _ ∨ ∃ u, s' ∈ Function.update g.wrote t _ u
      by_cases e : s' = s
      · subst e
        exact .inl (Function.update_self _ _ _)
      · rw [Function.update_of_ne e]
        refine (h.saved id d s' hd hs').imp_right (Or.imp_right (Or.imp_right ?_))
        rintro ⟨u, hu⟩
        refine ⟨u, ?_⟩
        by_cases hut : u = t
        · subst hut
          rw [Function.update_self]
          exact Finset.mem_erase.mpr ⟨e, hu⟩
        · rwa [Function.update_of_ne hut] }

/-- A dirty page is marked as clean, by a thread that is to save it. -/
theorem markClean (h : Sound R f g) (ht : 0 < g.pins t s) (hsaving : g.saving t = none) :
    Sound R { f with dirty := Function.update f.dirty s false }
      { g with saving := Function.update g.saving t (some s) } :=
  { h with
    free := h.free_dirty (h.not_free ht) _
    saving := by
      intro u s' hu
      by_cases hut : u = t
      · subst hut
        obtain rfl : s = s' := by simpa using hu
        exact ht
      · exact h.saving u s' (by simpa [Function.update_of_ne hut] using hu)
    saved := by
      intro id d s' hd hs'
      show Function.update f.dirty s false s' = true ∨ _ ∨ (∃ u, Function.update g.saving t _ u = some s') ∨ _
      by_cases e : s' = s
      · subst e
        exact .inr (.inr (.inl ⟨t, Function.update_self _ _ _⟩))
      · rw [Function.update_of_ne e]
        refine (h.saved id d s' hd hs').imp_right (Or.imp_right (Or.imp_left ?_))
        rintro ⟨u, hu⟩
        have hut : u ≠ t := by
          rintro rfl
          rw [hsaving] at hu
          cases hu
        exact ⟨u, (Function.update_of_ne hut _ _).trans hu⟩ }

/-! ### The disk -/

/-- The page is saved. -/
theorem savePage (h : Sound R f g) (ht : g.latch t s = some false) (hs : f.tables.pageTable.lookup id = some s)
    (hload : g.loading t ≠ some s) (hsaving : g.saving t = none ∨ g.saving t = some s) :
    Sound R { f with blocks := Function.update f.blocks (f.tables.pages s).id (f.data s) }
      { g with saving := Function.update g.saving t none } := by
  have hlatched : g.latch t s ≠ none := by
    rw [ht]
    simp
  have hloaded := h.loaded hlatched hload
  rw [h.slot_id hs]
  exact { h with
    saving := by
      intro u s' hu
      have hut : u ≠ t := by
        rintro rfl
        simp at hu
      exact h.saving u s' (by simpa [Function.update_of_ne hut] using hu)
    absent := by
      intro id' d hd hs'
      have hne : id' ≠ id := by
        rintro rfl
        rw [hs] at hs'
        cases hs'
      exact (Function.update_of_ne hne _ _).trans (h.absent id' d hd hs')
    saved := by
      intro id' d s' hd hs'
      show _ ∨ Function.update f.blocks id (f.data s) id' = d ∨ (∃ u, Function.update g.saving t none u = some s') ∨ _
      by_cases e : id' = id
      · subst e
        obtain rfl : s = s' := Option.some.inj (hs.symm.trans hs')
        rw [Function.update_self]
        exact .inr (.inl (h.data id' d s hd hs hloaded))
      · rw [Function.update_of_ne e]
        refine (h.saved id' d s' hd hs').imp_right (Or.imp_right (Or.imp_left ?_))
        rintro ⟨u, hu⟩
        have hut : u ≠ t := by
          rintro rfl
          rcases hsaving with hn | hn
          · rw [hn] at hu
            cases hu
          · obtain rfl : s = s' := Option.some.inj (hn.symm.trans hu)
            exact e (h.tables.inj _ _ _ hs' hs)
        exact ⟨u, (Function.update_of_ne hut _ _).trans hu⟩
    unread := by
      intro u s' id' d hu hs' hd
      have hne : id' ≠ id := by
        rintro rfl
        obtain rfl : s = s' := Option.some.inj (hs.symm.trans hs')
        exact hloaded u hu
      exact (Function.update_of_ne hne _ _).trans (h.unread u s' id' d hu hs' hd) }

/-- The page is loaded. -/
theorem loadPage (h : Sound R f g) (ht : g.loading t = some s) (hs : f.tables.pageTable.lookup id = some s) :
    Sound R { f with data := Function.update f.data s (f.blocks id) }
      { g with loading := Function.update g.loading t none } :=
  { h with
    ref_loaded := by
      intro u id' s' hu hload
      have hut : u ≠ t := by
        rintro rfl
        simp at hload
      exact h.ref_loaded u id' s' hu (by simpa [Function.update_of_ne hut] using hload)
    loading := by
      intro u s' hu
      have hut : u ≠ t := by
        rintro rfl
        simp at hu
      exact h.loading u s' (by simpa [Function.update_of_ne hut] using hu)
    data := by
      intro id' d s' hd hs' hu
      show Function.update f.data s (f.blocks id) s' = d
      by_cases e : s' = s
      · subst e
        rw [Function.update_self]
        obtain rfl := h.tables.inj _ _ _ hs' hs
        exact h.unread t s' id' d ht hs hd
      · rw [Function.update_of_ne e]
        refine h.data id' d s' hd hs' fun u hload => ?_
        by_cases hut : u = t
        · subst hut
          exact e (Option.some.inj (hload.symm.trans ht))
        · exact hu u ((Function.update_of_ne hut _ _).trans hload)
    unread := by
      intro u s' id' d hu hs' hd
      have hut : u ≠ t := by
        rintro rfl
        simp at hu
      exact h.unread u s' id' d (by simpa [Function.update_of_ne hut] using hu) hs' hd }

/-- The page is written to by a thread that has pinned and latched it. -/
theorem writePage (h : Sound R f g) (ht : g.latch t s = some true) (href : g.refs t id = some s)
    (hload : g.loading t ≠ some s) (d : D) :
    Sound R { f with data := Function.update f.data s d }
      { g with
        mem := Function.update g.mem (f.tables.pages s).id (some d)
        wrote := Function.update g.wrote t (insert s (g.wrote t)) } := by
  have hs := (h.ref t id s href).1
  have hloaded := h.loaded (by rw [ht]; simp) hload
  rw [h.slot_id hs]
  -- what is known of the other pages
  have hmem : ∀ {id' d'}, Function.update g.mem id (some d) id' = some d' →
      id' = id ∧ d' = d ∨ id' ≠ id ∧ g.mem id' = some d' := by
    intro id' d' hd'
    by_cases e : id' = id
    · subst e
      exact .inl ⟨rfl, by simpa using hd'.symm⟩
    · exact .inr ⟨e, by rwa [Function.update_of_ne e] at hd'⟩
  exact { h with
    wrote := by
      intro u s' hu
      by_cases hut : u = t
      · subst hut
        have hmem : s' = s ∨ s' ∈ g.wrote u := by simpa using hu
        rcases hmem with rfl | hmem
        · exact ht
        · exact h.wrote u s' hmem
      · exact h.wrote u s' (by simpa [Function.update_of_ne hut] using hu)
    absent := by
      intro id' d' hd' hs'
      rcases hmem hd' with ⟨rfl, -⟩ | ⟨-, hd'⟩
      · rw [hs] at hs'
        cases hs'
      · exact h.absent id' d' hd' hs'
    data := by
      intro id' d' s' hd' hs' hu
      show Function.update f.data s d s' = d'
      rcases hmem hd' with ⟨rfl, rfl⟩ | ⟨hne, hd'⟩
      · obtain rfl : s = s' := Option.some.inj (hs.symm.trans hs')
        exact Function.update_self _ _ _
      · have hslot : s' ≠ s := by
          rintro rfl
          exact hne (h.tables.inj _ _ _ hs' hs)
        rw [Function.update_of_ne hslot]
        exact h.data id' d' s' hd' hs' hu
    saved := by
      intro id' d' s' hd' hs'
      show _ ∨ _ ∨ _ ∨ ∃ u, s' ∈ Function.update g.wrote t (insert s (g.wrote t)) u
      rcases hmem hd' with ⟨rfl, rfl⟩ | ⟨hne, hd'⟩
      · obtain rfl : s = s' := Option.some.inj (hs.symm.trans hs')
        refine .inr (.inr (.inr ⟨t, ?_⟩))
        rw [Function.update_self]
        exact Finset.mem_insert_self _ _
      · refine (h.saved id' d' s' hd' hs').imp_right (Or.imp_right (Or.imp_right ?_))
        rintro ⟨u, hu⟩
        refine ⟨u, ?_⟩
        by_cases hut : u = t
        · subst hut
          rw [Function.update_self]
          exact Finset.mem_insert_of_mem hu
        · rwa [Function.update_of_ne hut]
    unread := by
      intro u s' id' d' hu hs' hd'
      rcases hmem hd' with ⟨rfl, -⟩ | ⟨-, hd'⟩
      · obtain rfl : s = s' := Option.some.inj (hs.symm.trans hs')
        exact absurd hu (hloaded u)
      · exact h.unread u s' id' d' hu hs' hd'
    fresh := by
      intro u id' hu
      obtain ⟨hnone, hall⟩ := h.fresh u id' hu
      refine ⟨?_, hall⟩
      have hne : id' ≠ id := by
        rintro rfl
        rw [(hall t).1] at href
        cases href
      exact (Function.update_of_ne hne _ _).trans hnone }

/-! ### The table and the queues -/

theorem reposition (h : Sound R f g) (hs : f.tables.pageTable.lookup id = some s) :
    Sound R { f with tables := f.tables.reposition id s } g :=
  { h with tables := h.tables.reposition hs }

/-- A slot that no other thread has pinned is given to a page that is not in memory. -/
theorem take (h : Sound R f g) {tables : PageBuffer Unit} (htables : Inv R tables)
    (hplain : ∀ s, (tables.pages s).pins = 0) (ht : g.table t = some true) (hload : g.loading t = none)
    {skipLoad : Bool} (hpinning : g.pinning t = some (id, skipLoad))
    (hnone : f.tables.pageTable.lookup id = none) (hid : tables.pageTable.lookup id = some s)
    (hothers : ∀ id' s', id' ≠ id → (tables.pageTable.lookup id' = some s' ↔
      f.tables.pageTable.lookup id' = some s' ∧ s' ≠ s))
    (hfree : tables.freeSlots ⊆ f.tables.freeSlots) (hpins : ∀ u, u ≠ t → g.pins u s = 0)
    (hrefs : ∀ id', g.refs t id' ≠ some s)
    (hsaved : ∀ id' d, g.mem id' = some d → f.tables.pageTable.lookup id' = some s → f.blocks id' = d) :
    Sound R { f with tables := tables } (g.take t id s) := by
  have hblocks : ∀ id' d, g.mem id' = some d → tables.pageTable.lookup id' = none → f.blocks id' = d := by
    intro id' d hd hlook
    have hne : id' ≠ id := by
      rintro rfl
      rw [hid] at hlook
      cases hlook
    cases hold : f.tables.pageTable.lookup id' with
    | none => exact h.absent id' d hd hold
    | some s' =>
      by_cases hs' : s' = s
      · subst hs'
        exact hsaved id' d hd hold
      · have hstill := (hothers id' s' hne).mpr ⟨hold, hs'⟩
        rw [hlook] at hstill
        cases hstill
  have hloading : ∀ u s', (g.take t id s).loading u = some s' →
      u = t ∧ s' = s ∨ u ≠ t ∧ g.loading u = some s' := by
    intro u s' hu
    by_cases hut : u = t
    · subst hut
      simp only [Ghost.take, Function.update_self] at hu
      split at hu
      · cases hu
      · exact .inl ⟨rfl, (Option.some.inj hu).symm⟩
    · refine .inr ⟨hut, ?_⟩
      simpa [Ghost.take, Function.update_of_ne hut] using hu
  exact { h with
    tables := htables
    plain := hplain
    free := fun s' hs' => h.free s' (hfree hs')
    ref := by
      intro u id' s' hu
      obtain ⟨hold, hlatch⟩ := h.ref u id' s' hu
      refine ⟨(hothers id' s' ?_).mpr ⟨hold, ?_⟩, hlatch⟩
      · rintro rfl
        rw [hnone] at hold
        cases hold
      · rintro rfl
        by_cases hut : u = t
        · subst hut
          exact hrefs id' hu
        · have hpos := h.latch_pins u s' hlatch
          have hzero := hpins u hut
          omega
    ref_loaded := by
      intro u id' s' hu hload'
      rcases hloading u s' hload' with ⟨rfl, rfl⟩ | ⟨-, hload'⟩
      · exact hrefs id' hu
      · exact h.ref_loaded u id' s' hu hload'
    loading := by
      intro u s' hu
      rcases hloading u s' hu with ⟨rfl, rfl⟩ | ⟨-, hu⟩
      · exact .inr ⟨ht, hpins⟩
      · exact h.loading u s' hu
    absent := hblocks
    data := by
      intro id' d s' hd hs' hu
      by_cases e : id' = id
      · subst e
        obtain rfl : s = s' := Option.some.inj (hid.symm.trans hs')
        -- the page is loaded by the thread, unless nothing was ever written to it
        have hskip : skipLoad = true := by
          by_contra hskip
          refine hu t ?_
          simp [Ghost.take, hpinning, hskip]
        subst hskip
        have hmem : some d = none := hd.symm.trans (h.fresh t id' hpinning).1
        cases hmem
      · have hold := (hothers id' s' e).mp hs'
        refine h.data id' d s' hd hold.1 fun u hload' => hu u ?_
        have hut : u ≠ t := by
          rintro rfl
          rw [hload] at hload'
          cases hload'
        exact (Function.update_of_ne hut _ _).trans hload'
    saved := by
      intro id' d s' hd hs'
      by_cases e : id' = id
      · subst e
        exact .inr (.inl (h.absent id' d hd hnone))
      · exact h.saved id' d s' hd ((hothers id' s' e).mp hs').1
    unread := by
      intro u s' id' d hu hs' hd
      by_cases e : id' = id
      · subst e
        exact h.absent id' d hd hnone
      · have hold := (hothers id' s' e).mp hs'
        rcases hloading u s' hu with ⟨-, hs⟩ | ⟨-, hu⟩
        · exact absurd hs hold.2
        · exact h.unread u s' id' d hu hold.1 hd }

omit [DecidableEq T] in
theorem plain_takeFreeSlot {tables : PageBuffer Unit} (h : ∀ s, (tables.pages s).pins = 0) (s' : ℕ) :
    ((tables.takeFreeSlot id s).pages s').pins = 0 := by
  by_cases e : s' = s
  · subst e
    simp [PageBuffer.takeFreeSlot, h]
  · simp [PageBuffer.takeFreeSlot, modifyPage_pages_ne e, h]

/-- Case 2.1 of `pinPage`: a free slot. -/
theorem takeFreeSlot (h : Sound R f g) (ht : g.table t = some true) (hload : g.loading t = none) {skipLoad : Bool}
    (hpinning : g.pinning t = some (id, skipLoad)) (hnone : f.tables.pageTable.lookup id = none)
    (hs : s ∈ f.tables.freeSlots) :
    Sound R { f with tables := f.tables.takeFreeSlot id s } (g.take t id s) := by
  have hnot : ∀ id', f.tables.pageTable.lookup id' ≠ some s := ((h.tables.free s).mp hs).2
  have hzero : ∀ u, g.pins u s = 0 := by
    have hcount := h.pinned s
    rw [(h.free s hs).1] at hcount
    exact hcount.eq_zero
  refine h.take (h.tables.takeFreeSlot hnone hs) (plain_takeFreeSlot h.plain) ht hload hpinning hnone ?_ ?_ ?_
    (fun u _ => hzero u) ?_ ?_
  · simp [PageBuffer.takeFreeSlot]
  · intro id' s' hne
    have hsame : (f.tables.takeFreeSlot id s).pageTable.lookup id' = f.tables.pageTable.lookup id' := by
      simp [PageBuffer.takeFreeSlot, AList.lookup_insert_ne hne]
    rw [hsame]
    refine ⟨fun hold => ⟨hold, ?_⟩, fun hold => hold.1⟩
    rintro rfl
    exact hnot id' hold
  · exact Finset.erase_subset _ _
  · intro id' href
    exact hnot id' (h.ref t id' s href).1
  · intro id' d _ hold
    exact absurd hold (hnot id')

/-- Cases 2.2 and 2.3: the slot of a page that nobody else has pinned, and that was saved. -/
theorem replace (h : Sound R f g) (ht : g.table t = some true) (hload : g.loading t = none) {skipLoad : Bool}
    (hpinning : g.pinning t = some (id, skipLoad)) (hnone : f.tables.pageTable.lookup id = none) {v : Victims}
    {key : PageId} (hkey : (f.tables.queue v).Has key s) (hpins : f.pins s = g.pins t s) (hclean : f.dirty s = false)
    (hsaving : g.saving t ≠ some s) (hwrote : s ∉ g.wrote t) (hrefs : ∀ id', g.refs t id' ≠ some s) :
    Sound R { f with tables := f.tables.replace v key id s } (g.take t id s) := by
  have hslot := h.tables.lookup_of_has hkey
  have hnot := h.tables.not_free hslot
  have hzero : ∀ u, u ≠ t → g.pins u s = 0 := fun u hu => (h.pinned s).alone hpins.symm hu
  have hrelease := h.tables.release hkey (h.plain s)
  have htable : ∀ id', (f.tables.release v key s).pageTable.lookup id' =
      if id' = key then none else f.tables.pageTable.lookup id' := by
    intro id'
    have herase : (f.tables.release v key s).pageTable = f.tables.pageTable.erase key := by cases v <;> rfl
    rw [herase]
    by_cases e : id' = key
    · subst e
      simp
    · rw [if_neg e, AList.lookup_erase_ne e]
  have hfreed : (f.tables.release v key s).freeSlots = insert s f.tables.freeSlots := by cases v <;> rfl
  have hkeyid : key ≠ id := by
    rintro rfl
    rw [hnone] at hslot
    cases hslot
  have hnone' : (f.tables.release v key s).pageTable.lookup id = none := by
    rw [htable, if_neg (Ne.symm hkeyid), hnone]
  have hmem : s ∈ (f.tables.release v key s).freeSlots := by
    rw [hfreed]
    exact Finset.mem_insert_self _ _
  rw [replace_eq hnot]
  have hplain : ∀ s', ((f.tables.release v key s).pages s').pins = 0 := by
    cases v <;> exact h.plain
  refine h.take (hrelease.takeFreeSlot hnone' hmem) (plain_takeFreeSlot hplain) ht hload hpinning hnone ?_ ?_ ?_ hzero
    hrefs ?_
  · simp [PageBuffer.takeFreeSlot]
  · intro id' s' hne
    have hsame : ((f.tables.release v key s).takeFreeSlot id s).pageTable.lookup id' =
        if id' = key then none else f.tables.pageTable.lookup id' := by
      simp [PageBuffer.takeFreeSlot, AList.lookup_insert_ne hne, htable]
    rw [hsame]
    by_cases e : id' = key
    · subst e
      rw [if_pos rfl, hslot]
      constructor
      · intro hn
        cases hn
      · rintro ⟨hs', hne'⟩
        exact absurd (Option.some.inj hs').symm hne'
    · rw [if_neg e]
      refine ⟨fun hold => ⟨hold, ?_⟩, fun hold => hold.1⟩
      rintro rfl
      exact e (h.tables.inj _ _ _ hold hslot)
  · intro s' hs'
    have hs' : s' ∈ (f.tables.release v key s).freeSlots.erase s := hs'
    rwa [hfreed, Finset.erase_insert hnot] at hs'
  · intro id' d hd hold
    rcases h.saved id' d s hd hold with hdirty | hblocks | ⟨u, hu⟩ | ⟨u, hu⟩
    · rw [hclean] at hdirty
      cases hdirty
    · exact hblocks
    · by_cases hut : u = t
      · subst hut
        exact absurd hu hsaving
      · have hpos := h.saving u s hu
        have := hzero u hut
        omega
    · by_cases hut : u = t
      · subst hut
        exact absurd hu hwrote
      · have hpos := h.latch_pins u s (by rw [h.wrote u s hu]; simp)
        have := hzero u hut
        omega

/-! ### Where operations begin and pins end -/

theorem enter (h : Sound R f g) {op : ClientOp D} (hop : g.Allowed t op s) : Sound R f (g.enter t op) := by
  cases op with
  | pinPage id mode skipLoad =>
    obtain ⟨-, hnobody, hfirst⟩ := hop
    exact { h with
      fresh := by
        intro u id' hu
        by_cases hut : u = t
        · subst hut
          obtain ⟨rfl, rfl⟩ : id = id' ∧ skipLoad = true := by simpa [Ghost.enter] using hu
          refine ⟨(hfirst rfl).1, fun x => ⟨((hfirst rfl).2 x).1, fun hx b hb => ?_⟩⟩
          have hb : g.pinning x = some (id, b) := by simpa [Ghost.enter, Function.update_of_ne hx] using hb
          cases b with
          | true => exact hnobody x hb
          | false => exact ((hfirst rfl).2 x).2 hb
        · have hpin : g.pinning u = some (id', true) := by simpa [Ghost.enter, Function.update_of_ne hut] using hu
          obtain ⟨hnone, hall⟩ := h.fresh u id' hpin
          refine ⟨hnone, fun x => ⟨(hall x).1, fun hx b hb => ?_⟩⟩
          by_cases hxt : x = t
          · subst hxt
            obtain ⟨rfl, -⟩ : id = id' ∧ skipLoad = b := by simpa [Ghost.enter] using hb
            exact hnobody u hpin
          · exact (hall x).2 hx b (by simpa [Ghost.enter, Function.update_of_ne hxt] using hb) }
  | unpinPage id dirty =>
    have hold : ∀ u id' s', (g.enter t (.unpinPage id dirty : ClientOp D)).refs u id' = some s' →
        g.refs u id' = some s' := by
      intro u id' s' hu
      simp only [Ghost.enter] at hu
      rcases update₂_or g.refs t id none u id' with ⟨rfl, rfl⟩ | e
      · rw [update₂_self] at hu
        cases hu
      · exact e.symm.trans hu
    exact { h with
      ref := fun u id' s' hu => h.ref u id' s' (hold u id' s' hu)
      ref_loaded := fun u id' s' hu => h.ref_loaded u id' s' (hold u id' s' hu)
      fresh := by
        intro u id' hu
        refine ⟨(h.fresh u id' hu).1, fun x => ⟨?_, ((h.fresh u id' hu).2 x).2⟩⟩
        rw [Option.eq_none_iff_forall_ne_some]
        intro s' hx
        have hnone := ((h.fresh u id' hu).2 x).1
        rw [hold x id' s' hx] at hnone
        cases hnone }
  | createPage => exact h
  | read id => exact h
  | write id d => exact h

theorem leave (h : Sound R f g) {skipLoad : Bool} (hpinning : g.pinning t = some (id, skipLoad))
    (hs : f.tables.pageTable.lookup id = some s) (ht : g.latch t s ≠ none) (hload : g.loading t ≠ some s) :
    Sound R f (g.leave t id s) :=
  have hrefs : ∀ u id' s', (g.leave t id s).refs u id' = some s' →
      u = t ∧ id' = id ∧ s' = s ∨ g.refs u id' = some s' := by
    intro u id' s' hu
    simp only [Ghost.leave] at hu
    rcases update₂_or g.refs t id (some s) u id' with ⟨rfl, rfl⟩ | e
    · rw [update₂_self] at hu
      exact .inl ⟨rfl, rfl, (Option.some.inj hu).symm⟩
    · exact .inr (e.symm.trans hu)
  { h with
    ref := by
      intro u id' s' hu
      rcases hrefs u id' s' hu with ⟨rfl, rfl, rfl⟩ | hu
      · exact ⟨hs, ht⟩
      · exact h.ref u id' s' hu
    ref_loaded := by
      intro u id' s' hu
      rcases hrefs u id' s' hu with ⟨rfl, rfl, rfl⟩ | hu
      · exact hload
      · exact h.ref_loaded u id' s' hu
    fresh := by
      intro u id' hu
      have hut : u ≠ t := by
        rintro rfl
        simp [Ghost.leave] at hu
      have hpin : g.pinning u = some (id', true) := by simpa [Ghost.leave, Function.update_of_ne hut] using hu
      obtain ⟨hnone, hall⟩ := h.fresh u id' hpin
      have hne : id' ≠ id := by
        rintro rfl
        exact (hall t).2 (Ne.symm hut) skipLoad hpinning
      refine ⟨hnone, fun x => ⟨?_, fun hx b hb => ?_⟩⟩
      · simp only [Ghost.leave]
        rw [update₂_slot hne]
        exact (hall x).1
      · by_cases hxt : x = t
        · subst hxt
          simp [Ghost.leave] at hb
        · exact (hall x).2 hx b (by simpa [Ghost.leave, Function.update_of_ne hxt] using hb) }

end Sound

end BEpsilon.Buffer
