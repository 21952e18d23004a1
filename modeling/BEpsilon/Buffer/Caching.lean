import BEpsilon.Buffer.Invariant

/-!
# BEpsilon.Buffer.Caching — what the page buffer does to the data of the pages

`Backed b id d` says that the disk has `d` for the page unless its slot is marked dirty, `Cached b id
d` that its slot, if it has one, has `d`.  An unpinned page satisfies both with the same `d`; while it
is pinned its data may move away from what backs it, and `unpinPage` has to be told.  `PinPost` is
what every path of `pinPage` does to all pages.
-/

namespace BEpsilon.Buffer

open PageBuffer

variable {D : Type} {R : BufRules} {b b' : PageBuffer D} {id : PageId} {mode : LatchMode D}
  {skipLoad : Bool} {index : ℕ} {d d₀ : D}

/-- The disk has `d` for the page, unless the page is marked dirty. -/
def Backed (b : PageBuffer D) (id : PageId) (d : D) : Prop :=
  (b.pageTable.lookup id = none → b.blocks id = d) ∧
    ∀ s, b.pageTable.lookup id = some s → (b.pages s).dirty = false → b.blocks id = d

/-- The slot of the page, if it has one, has the data `d`. -/
def Cached (b : PageBuffer D) (id : PageId) (d : D) : Prop :=
  ∀ s, b.pageTable.lookup id = some s → (b.pages s).data = d

/-- No pin is held on the page. -/
def Unpinned (b : PageBuffer D) (id : PageId) : Prop :=
  ∀ s, b.pageTable.lookup id = some s → (b.pages s).pins = 0

/-- What a `pinPage` that answers the slot `s` has done. -/
structure PinPost (R : BufRules) (b b' : PageBuffer D) (id : PageId) (mode : LatchMode D)
    (skipLoad : Bool) (s : ℕ) : Prop where
  inv : Inv R b'
  slot : b'.pageTable.lookup id = some s
  pins : (b'.pages s).pins = 1
  latched : (b'.pages s).mutex = held (mode.exclusive (b'.pages s).data)
  was_free : (b.pages s).pins = 0
  pages : ∀ s', s' ≠ s → b'.pages s' = b.pages s'
  kept : ∀ id', id' ≠ id → ∀ s', b'.pageTable.lookup id' = some s' →
    b.pageTable.lookup id' = some s'
  pinned : ∀ id' s', b.pageTable.lookup id' = some s' → (b.pages s').pins ≠ 0 →
    b'.pageTable.lookup id' = some s'
  created : b'.created = b.created
  /-- the page itself, unless it was not loaded on purpose -/
  self : skipLoad = false ∨ b.pageTable.lookup id ≠ none → ∀ d, Backed b id d → Cached b id d →
    Backed b' id d ∧ Cached b' id d
  others : ∀ id', id' ≠ id → ∀ d₀ d, Backed b id' d₀ → Cached b id' d →
    (Unpinned b id' → d₀ = d) → Backed b' id' d₀ ∧ Cached b' id' d

/-- The hit path. -/
theorem pinPost_hit (hI : Inv R b) (hid : b.pageTable.lookup id = some index)
    (hpins : (b.pages index).pins = 0) :
    PinPost R b ((b.reposition id index).modifyPage index fun page =>
      { page with pins := 1, mutex := held (mode.exclusive (b.pages index).data) }) id mode skipLoad
      index := by
  have hdata : ∀ s, (((b.reposition id index).modifyPage index fun page =>
      { page with pins := 1, mutex := held (mode.exclusive (b.pages index).data) }).pages s).data =
      (b.pages s).data := fun s => by
    by_cases e : s = index
    · subst e; simp
    · rw [modifyPage_pages_ne e, reposition_pages]
  have hdirty : ∀ s, (((b.reposition id index).modifyPage index fun page =>
      { page with pins := 1, mutex := held (mode.exclusive (b.pages index).data) }).pages s).dirty =
      (b.pages s).dirty := fun s => by
    by_cases e : s = index
    · subst e; simp
    · rw [modifyPage_pages_ne e, reposition_pages]
  have hsame : ∀ id' d₀ d, Backed b id' d₀ → Cached b id' d →
      Backed ((b.reposition id index).modifyPage index fun page =>
        { page with pins := 1, mutex := held (mode.exclusive (b.pages index).data) }) id' d₀ ∧
      Cached ((b.reposition id index).modifyPage index fun page =>
        { page with pins := 1, mutex := held (mode.exclusive (b.pages index).data) }) id' d := by
    intro id' d₀ d hB hC
    exact ⟨⟨hB.1, fun s hs hd => hB.2 s hs (by rwa [hdirty] at hd)⟩,
      fun s hs => by rw [hdata]; exact hC s hs⟩
  refine ⟨(hI.reposition hid).modifyPage rfl (latchOk_held _) fun h => absurd h (hI.not_free hid),
    hid, by simp, by simp, hpins, fun s' hs' => by rw [modifyPage_pages_ne hs', reposition_pages],
    fun _ _ _ h => h, fun _ _ h _ => h, rfl, fun _ d => hsame id d d, fun id' _ d₀ d hB hC _ =>
      hsame id' d₀ d hB hC⟩

/-- The paths that give the page the slot of nobody, after the victim `key` has been released. -/
theorem pinPost_take (hI : Inv R b) (hid : b.pageTable.lookup id = none)
    (hfree : index ∈ b.freeSlots) (hd : d = loaded b id skipLoad index) :
    PinPost R b ((b.takeFreeSlot id index).modifyPage index fun page =>
      { page with pins := 1, dirty := false, data := d, mutex := held (mode.exclusive d) }) id mode
      skipLoad index := by
  obtain ⟨hlt, hno⟩ := (hI.free index).mp hfree
  have hlook : ∀ id', id' ≠ id → (b.takeFreeSlot id index).pageTable.lookup id' =
      b.pageTable.lookup id' := fun id' e => by
    simp [PageBuffer.takeFreeSlot, AList.lookup_insert_ne e]
  have hself : (b.takeFreeSlot id index).pageTable.lookup id = some index := by
    simp [PageBuffer.takeFreeSlot]
  have hpages : ∀ s', s' ≠ index → (b.takeFreeSlot id index).pages s' = b.pages s' := fun s' e => by
    simp [PageBuffer.takeFreeSlot, PageBuffer.modifyPage, e]
  have hne : ∀ id' s', b.pageTable.lookup id' = some s' → s' ≠ index := by
    rintro id' s' h rfl
    exact hno id' h
  refine ⟨(hI.takeFreeSlot hid hfree).modifyPage rfl (latchOk_held _) fun h => ?_, hself, by simp,
    by simp, hI.free_pins _ hfree, fun s' e => by rw [modifyPage_pages_ne e, hpages s' e],
    fun id' e s' h => by rwa [modifyPage_pageTable, hlook id' e] at h, fun id' s' h _ => ?_, rfl,
    fun hload d' hB hC => ?_, fun id' e d₀ d' hB hC _ => ⟨⟨?_, ?_⟩, ?_⟩⟩
  · exact absurd h ((hI.takeFreeSlot hid hfree).not_free hself)
  · have e : id' ≠ id := by
      rintro rfl
      rw [hid] at h
      simp at h
    rw [modifyPage_pageTable, hlook id' e, h]
  · obtain rfl : skipLoad = false := hload.resolve_right (by simp [hid])
    have hd' : d = d' := by rw [hd, ← hB.1 hid]; rfl
    refine ⟨⟨fun h => ?_, fun s hs _ => hB.1 hid⟩, fun s hs => ?_⟩
    · rw [modifyPage_pageTable, hself] at h
      simp at h
    · obtain rfl := by simpa using hself.symm.trans hs
      simpa using hd'
  · intro h
    rw [modifyPage_pageTable, hlook id' e] at h
    exact hB.1 h
  · intro s hs hdirty
    rw [modifyPage_pageTable, hlook id' e] at hs
    rw [modifyPage_pages_ne (hne id' s hs), hpages s (hne id' s hs)] at hdirty
    exact hB.2 s hs hdirty
  · intro s hs
    rw [modifyPage_pageTable, hlook id' e] at hs
    rw [modifyPage_pages_ne (hne id' s hs), hpages s (hne id' s hs)]
    exact hC s hs

section Evict

variable {v : Victims} {key : PageId}

/-- The buffer after the victim has been written back and its slot freed. -/
def PageBuffer.evicted (b : PageBuffer D) (v : Victims) (key : PageId) (index : ℕ) : PageBuffer D :=
  (b.writtenBack index).release v key index

theorem evicted_pages : (b.evicted v key index).pages = b.pages := by
  unfold evicted writtenBack
  split <;> cases v <;> rfl

theorem evicted_pageTable : (b.evicted v key index).pageTable = b.pageTable.erase key := by
  unfold evicted writtenBack
  split <;> cases v <;> rfl

theorem evicted_lookup_ne (hne : id ≠ key) :
    (b.evicted v key index).pageTable.lookup id = b.pageTable.lookup id := by
  rw [evicted_pageTable, AList.lookup_erase_ne hne]

theorem evicted_lookup_self : (b.evicted v key index).pageTable.lookup key = none := by
  rw [evicted_pageTable, AList.lookup_erase]

theorem evicted_blocks : (b.evicted v key index).blocks = (b.writtenBack index).blocks := by
  unfold evicted
  cases v <;> rfl

theorem Inv.evicted (hI : Inv R b) (hkey : (b.queue v).Has key index)
    (hpins : (b.pages index).pins = 0) : Inv R (b.evicted v key index) :=
  (hI.writtenBack index).release (by rw [writtenBack_queue]; exact hkey)
    (by rw [writtenBack_pages]; exact hpins)

/-- Releasing an unpinned page keeps every page where it was or on disk. -/
theorem evicted_holds (hI : Inv R b) (hkey : b.pageTable.lookup key = some index)
    (hpins : (b.pages index).pins = 0) (hB : Backed b id d₀) (hC : Cached b id d)
    (hun : Unpinned b id → d₀ = d) :
    Backed (b.evicted v key index) id d₀ ∧ Cached (b.evicted v key index) id d := by
  have hid := hI.page_id key index hkey
  by_cases e : id = key
  · subst e
    obtain rfl := hun fun s hs => by
      obtain rfl := Option.some.inj (hkey.symm.trans hs)
      exact hpins
    refine ⟨⟨fun _ => ?_, fun s hs => ?_⟩, fun s hs => ?_⟩
    · rw [evicted_blocks, writtenBack]
      split
      next hdirty =>
        simp only [save, hid, Function.update_self]
        exact hC index hkey
      next hdirty => exact hB.2 index hkey (by simpa using hdirty)
    · rw [evicted_lookup_self] at hs
      simp at hs
    · rw [evicted_lookup_self] at hs
      simp at hs
  · have hblocks : (b.evicted v key index).blocks id = b.blocks id := by
      rw [evicted_blocks, writtenBack]
      split
      · simp [save, hid, e]
      · rfl
    refine ⟨⟨fun h => ?_, fun s hs hd => ?_⟩, fun s hs => ?_⟩
    · rw [evicted_lookup_ne e] at h
      rw [hblocks]
      exact hB.1 h
    · rw [evicted_lookup_ne e] at hs
      rw [evicted_pages] at hd
      rw [hblocks]
      exact hB.2 s hs hd
    · rw [evicted_lookup_ne e] at hs
      rw [evicted_pages]
      exact hC s hs

/-- The eviction paths. -/
theorem pinPost_evict (hI : Inv R b) (hid : b.pageTable.lookup id = none)
    (hkey : (b.queue v).Has key index) (hpins : (b.pages index).pins = 0)
    (hd : d = loaded (b.writtenBack index) id skipLoad index) :
    PinPost R b (((b.writtenBack index).replace v key id index).modifyPage index fun page =>
      { page with pins := 1, dirty := false, data := d, mutex := held (mode.exclusive d) }) id mode
      skipLoad index := by
  have hlook := hI.lookup_of_has hkey
  have hne : id ≠ key := by
    rintro rfl
    rw [hid] at hlook
    simp at hlook
  have hIc := hI.evicted hkey hpins
  have hnf : index ∉ (b.writtenBack index).freeSlots :=
    (hI.writtenBack index).not_free (by
      rw [writtenBack_pageTable]
      exact hlook)
  have hfree : index ∈ (b.evicted v key index).freeSlots := by
    have e : (b.evicted v key index).freeSlots = insert index (b.writtenBack index).freeSlots := by
      unfold evicted
      cases v <;> rfl
    rw [e]
    exact Finset.mem_insert_self _ _
  have hdc : d = loaded (b.evicted v key index) id skipLoad index := by
    rw [hd, loaded, loaded, evicted_blocks, evicted_pages, writtenBack_pages]
  have hP := @pinPost_take _ _ _ _ mode _ _ _ hIc (by rw [evicted_lookup_ne hne, hid]) hfree hdc
  rw [replace_eq hnf]
  have hun : Unpinned b id := fun s hs => by
    rw [hid] at hs
    simp at hs
  refine ⟨hP.inv, hP.slot, hP.pins, hP.latched, hpins, fun s' e => ?_, fun id' e s' h => ?_,
    fun id' s' h hp => ?_, ?_, fun hload d' hB hC => ?_, fun id' e d₀ d' hB hC hu => ?_⟩
  · rw [← @evicted_pages _ b index v key]
    exact hP.pages s' e
  · have h' := hP.kept id' e s' h
    by_cases ek : id' = key
    · subst ek
      rw [evicted_lookup_self] at h'
      simp at h'
    · rwa [evicted_lookup_ne ek] at h'
  · refine hP.pinned id' s' ?_ (by rw [evicted_pages]; exact hp)
    rw [evicted_lookup_ne, h]
    rintro rfl
    obtain rfl := Option.some.inj (hlook.symm.trans h)
    exact hp hpins
  · unfold writtenBack
    split <;> cases v <;> rfl
  · obtain ⟨hB', hC'⟩ := evicted_holds (v := v) hI hlook hpins hB hC fun _ => rfl
    exact hP.self (hload.imp_right fun h => absurd hid h) d' hB' hC'
  · obtain ⟨hB', hC'⟩ := evicted_holds (v := v) hI hlook hpins hB hC hu
    refine hP.others id' e d₀ d' hB' hC' fun hu' => hu fun s hs => ?_
    by_cases ek : id' = key
    · subst ek
      obtain rfl := Option.some.inj (hlook.symm.trans hs)
      exact hpins
    · have h := hu' s (by rw [evicted_lookup_ne ek, hs])
      rwa [evicted_pages] at h

end Evict

/-! ### `pinPage` -/

theorem findIn_eq_some {v : Victims} {key : PageId} (h : b.findIn v = some key) :
    ∃ s, (b.queue v).Has key s ∧ (b.pages s).pins = 0 := by
  obtain ⟨e, he, rfl⟩ := Option.map_eq_some_iff.mp h
  have hm : e ∈ (b.queue v).entryQueue := List.mem_reverse.mp (List.mem_of_find?_eq_some he)
  exact ⟨e.value, ⟨e, hm, rfl, rfl⟩, by simpa using List.find?_some he⟩

theorem findIn_eq_none {v : Victims} (h : b.findIn v = none) {key : PageId} {s : ℕ}
    (hkey : (b.queue v).Has key s) : (b.pages s).pins ≠ 0 := by
  obtain ⟨e, he, rfl, rfl⟩ := hkey
  have := List.find?_eq_none.mp (Option.map_eq_none_iff.mp h) e (List.mem_reverse.mpr he)
  simpa using this

/-- When every slot is taken, a slot belongs to some page. -/
theorem Inv.slot_used (hI : Inv R b) (hfull : ¬ b.pageTable.entries.length < R.N) {s : ℕ}
    (hs : s < R.N) : ∃ key, b.pageTable.lookup key = some s := by
  have hcard : b.freeSlots.card = 0 := by
    have := hI.count
    omega
  by_contra hno
  have : s ∈ b.freeSlots := (hI.free s).mpr ⟨hs, fun i h => hno ⟨i, h⟩⟩
  rw [Finset.card_eq_zero.mp hcard] at this
  simp at this

theorem victim_eq_some {v : Victims} {key : PageId} (h : b.victim = some (v, key)) :
    b.findIn v = some key := by
  unfold victim at h
  split at h
  next hf =>
    obtain ⟨rfl, rfl⟩ := by simpa using h
    exact hf
  next hf =>
    obtain ⟨k, hk, e⟩ := Option.map_eq_some_iff.mp h
    obtain ⟨rfl, rfl⟩ := by simpa using e
    exact hk

/-- No victim: every page in memory is pinned. -/
theorem Inv.all_pinned (hI : Inv R b) (h : b.victim = none) {key : PageId} {s : ℕ}
    (hkey : b.pageTable.lookup key = some s) : (b.pages s).pins ≠ 0 := by
  unfold victim at h
  split at h
  · simp at h
  next hf =>
    rcases (hI.queued key s).mp hkey with hq | hq
    · exact findIn_eq_none hf hq
    · exact findIn_eq_none (Option.map_eq_none_iff.mp h) hq

/-- `pinPage` of a page without pins returns when the page is in memory or a slot has no pins. -/
theorem pinPage_returns (hI : Inv R b) (hun : Unpinned b id)
    (hroom : b.pageTable.lookup id ≠ none ∨ ∃ s < R.N, (b.pages s).pins = 0) :
    Runs (handler R) (pinPage id mode skipLoad) b fun s b' => PinPost R b b' id mode skipLoad s := by
  cases hid : b.pageTable.lookup id with
  | some index =>
    have hpins := hun index hid
    refine (pinPage_hit hI.unlocked hid hpins (l := held (mode.exclusive (b.pages index).data))
      (by rw [(hI.latch index).idle hpins, lock_free])).mono ?_
    rintro _ b' ⟨rfl, rfl⟩
    exact pinPost_hit hI hid hpins
  | none =>
    by_cases hspace : b.pageTable.entries.length < R.N
    · have hne : b.freeSlots.Nonempty := by
        have := hI.count
        exact Finset.card_pos.mp (by omega)
      have hmem := R.slot_mem _ hne
      have hpins := hI.free_pins _ hmem
      refine (pinPage_free hI.unlocked hid hspace hne.ne_empty rfl hpins
        ((hI.latch _).idle hpins) rfl).mono ?_
      rintro _ b' ⟨rfl, rfl⟩
      exact pinPost_take hI hid hmem rfl
    · obtain ⟨s, hs, hp⟩ := hroom.resolve_left (by simp [hid])
      obtain ⟨key₀, hkey₀⟩ := hI.slot_used hspace hs
      cases hv : b.victim with
      | none => exact absurd hp (hI.all_pinned hv hkey₀)
      | some w =>
        obtain ⟨v, key⟩ := w
        obtain ⟨index, hkey, hpins⟩ := findIn_eq_some (victim_eq_some hv)
        have hq := hI.queue_ok v
        refine (pinPage_evict hI.unlocked hid hspace hv (hq.find_eq_some.mpr hkey)
          (hq.contains_iff.mpr ⟨_, hkey⟩) hpins ((hI.latch _).idle hpins) rfl).mono ?_
        rintro _ b' ⟨rfl, rfl⟩
        exact pinPost_evict hI hid hkey hpins rfl

/-- Otherwise it raises. -/
theorem pinPage_raises (hI : Inv R b) (hid : b.pageTable.lookup id = none)
    (hpinned : ∀ s < R.N, (b.pages s).pins ≠ 0) :
    Raises (handler R) (pinPage id mode skipLoad) b .bufferFull fun b' =>
      b' = b.withTable (held false) := by
  have hspace : ¬ b.pageTable.entries.length < R.N := fun h => by
    have := hI.count
    obtain ⟨s, hs⟩ := Finset.card_pos.mp (show 0 < b.freeSlots.card by omega)
    exact hpinned s ((hI.free s).mp hs).1 (hI.free_pins s hs)
  refine pinPage_full hI.unlocked hid hspace ?_
  cases hv : b.victim with
  | none => rfl
  | some w =>
    obtain ⟨index, hkey, hpins⟩ := findIn_eq_some (@victim_eq_some _ b w.1 w.2 hv)
    exact absurd hpins (hpinned index (hI.slot_lt _ _ (hI.lookup_of_has hkey)))

/-! ### `unpinPage` and `flush` -/

/-- What `unpinPage` leaves of a page. -/
def Page.unpinned (page : Page D) (dirty : Bool) : Page D :=
  { page with dirty := dirty || page.dirty, mutex := page.mutex.unlock, pins := page.pins - 1 }

theorem unpinPage_returns {dirty : Bool} (hpins : 1 ≤ (b.pages index).pins) :
    Runs (handler R) (unpinPage index dirty) b fun _ b' =>
      b' = b.modifyPage index fun page => page.unpinned dirty := by
  simp only [unpinPage, Prog.bind_def]
  refine runs_call rfl (runs_check (decide_eq_true hpins) ?_)
  cases dirty with
  | true =>
    refine runs_call rfl (runs_call rfl (runs_call rfl (runs_ret ?_)))
    simp only [modifyPage_modifyPage]
    rfl
  | false =>
    refine runs_call rfl (runs_call rfl (runs_ret ?_))
    rw [modifyPage_modifyPage]
    rfl

theorem LatchOk.unpinned {page : Page D} (h : LatchOk page) (hp : 1 ≤ page.pins) (dirty : Bool) :
    LatchOk (page.unpinned dirty) := by
  obtain ⟨data, id, ⟨e, s⟩, pins, dirty'⟩ := page
  cases e <;> simp_all [LatchOk, Page.unpinned, Latch.unlock]

theorem Inv.unpinned (hI : Inv R b) (hpins : 1 ≤ (b.pages index).pins) (dirty : Bool) :
    Inv R (b.modifyPage index fun page => page.unpinned dirty) := by
  refine hI.modifyPage rfl ((hI.latch index).unpinned hpins dirty) fun h => ?_
  have := hI.free_pins index h
  simp [Page.unpinned, this]

/-- The disk after `flush`: the dirty pages are saved, the others are as they were. -/
structure Flushed (b b' : PageBuffer D) : Prop where
  frame : b' = { b with blocks := b'.blocks }
  saved : ∀ id s, b.pageTable.lookup id = some s → (b.pages s).dirty = true →
    b'.blocks id = (b.pages s).data
  others : ∀ id, (∀ s, b.pageTable.lookup id = some s → (b.pages s).dirty = false) →
    b'.blocks id = b.blocks id

theorem flush_returns (hI : Inv R b) :
    Runs (handler R) (flush R) b fun _ b' => Flushed b b' := by
  refine (runs_forFold (fun as _ w => (∀ a ∈ as, a < R.N) ∧ ∃ bl, w = { b with blocks := bl } ∧
    (∀ id s, b.pageTable.lookup id = some s → (b.pages s).dirty = true → s ∉ as →
      bl id = (b.pages s).data) ∧
    ∀ id, (∀ s, b.pageTable.lookup id = some s → (b.pages s).dirty = false) →
      bl id = b.blocks id) ?_ ⟨fun a ha => List.mem_range.mp ha, b.blocks, rfl, ?_, fun _ _ => rfl⟩).mono ?_
  · rintro a as ⟨⟩ w ⟨hlt, bl, rfl, hsaved, hothers⟩
    have hlt' : ∀ a ∈ as, a < R.N := fun x hx => hlt x (List.mem_cons_of_mem _ hx)
    -- the slot needs no write back
    have hskip : (∀ id, b.pageTable.lookup id = some a → (b.pages a).dirty = false) →
        ∀ id s, b.pageTable.lookup id = some s → (b.pages s).dirty = true → s ∉ as →
          bl id = (b.pages s).data := by
      intro hclean id s hid hd hs
      refine hsaved id s hid hd fun hm => (List.mem_cons.mp hm).elim ?_ hs
      rintro rfl
      rw [hclean id hid] at hd
      simp at hd
    refine runs_call rfl ?_
    by_cases hf : a ∈ b.freeSlots
    · rw [decide_eq_true hf]
      exact runs_ret ⟨hlt', bl, rfl, hskip fun id hid => absurd hf (hI.not_free hid), hothers⟩
    · rw [decide_eq_false hf]
      refine runs_call rfl ?_
      by_cases hd : (b.pages a).dirty = true
      · rw [hd]
        obtain ⟨id₀, hid₀⟩ : ∃ id, b.pageTable.lookup id = some a := by
          by_contra hno
          exact hf ((hI.free a).mpr ⟨hlt a List.mem_cons_self, fun i h => hno ⟨i, h⟩⟩)
        have hpid := hI.page_id id₀ a hid₀
        refine runs_call rfl (runs_ret ⟨hlt', Function.update bl id₀ (b.pages a).data, ?_,
          fun id s hid hds hs => ?_, fun id hclean => ?_⟩)
        · simp only [save, hpid]
        · by_cases e : s = a
          · subst e
            rw [hI.inj id id₀ s hid hid₀, Function.update_self]
          · rw [Function.update_of_ne, hsaved id s hid hds fun hm => (List.mem_cons.mp hm).elim e hs]
            rintro rfl
            exact e (Option.some.inj (hid.symm.trans hid₀))
        · rw [Function.update_of_ne, hothers id hclean]
          rintro rfl
          rw [hclean a hid₀] at hd
          simp at hd
      · rw [Bool.eq_false_of_not_eq_true hd]
        exact runs_ret ⟨hlt', bl, rfl, hskip fun _ _ => by simpa using hd, hothers⟩
  · exact fun id s hid _ hs => absurd (List.mem_range.mpr (hI.slot_lt id s hid)) hs
  · rintro _ b' ⟨-, bl, rfl, hsaved, hothers⟩
    exact ⟨rfl, fun id s hid hd => hsaved id s hid hd (by simp), hothers⟩

theorem Flushed.inv (hF : Flushed b b') (hI : Inv R b) : Inv R b' := by
  rw [hF.frame]
  exact ⟨hI.unlocked, hI.inj, hI.slot_lt, hI.free, hI.count, hI.page_id, hI.fifo_ok, hI.lru_ok,
    hI.queued, hI.apart, hI.free_pins, hI.latch⟩

/-- A page is backed as before, and once it is not pinned the disk has its data. -/
theorem Flushed.backed (hF : Flushed b b') (hB : Backed b id d) : Backed b' id d := by
  have htable : b'.pageTable = b.pageTable := by rw [hF.frame]
  have hpages : b'.pages = b.pages := by rw [hF.frame]
  refine ⟨fun h => ?_, fun s hs hd => ?_⟩
  · rw [htable] at h
    rw [hF.others id fun s hs => by rw [h] at hs; simp at hs]
    exact hB.1 h
  · rw [htable] at hs
    rw [hpages] at hd
    rw [hF.others id fun s' hs' => by obtain rfl := Option.some.inj (hs.symm.trans hs'); exact hd]
    exact hB.2 s hs hd

end BEpsilon.Buffer
