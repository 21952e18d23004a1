import BEpsilon.Buffer.SharingViews

/-!
# BEpsilon.Buffer.SharingPin — what a thread in `pinPage` owes to the others

A thread between two rounds of `pinPage` has pinned and latched exactly the pages that it refers to.  Within a round
it has one slot more, which belongs to the page that it wants or to the one that it is about to evict.  Each function
of `pinPage` is followed through these states, and no command of it is one that the thread must not issue.
-/

namespace BEpsilon.Buffer

open PageBuffer

variable {D : Type}

namespace Outlook

/-- The commands of the buffer, for the outlook of the thread. -/
abbrev moves (R : BufRules) : Steps (BufCmd D) Outlook := fun β c => step R β (.inl c)

abbrev Owed : (β : Type) → BufCmd D β → Outlook → Prop := fun β c => Proper β (.inl c)

/-- The thread has pinned and latched the pages that it refers to, and beside them it may have the slot `x`. -/
structure Holds (p : Option (PageId × Bool)) (x : Option ℕ) (v : Outlook) : Prop where
  pinning : v.pinning = p
  fresh : ∀ id skipLoad, p = some (id, skipLoad) → v.refs id = none
  pin : ∀ s, 0 < v.pins s → x = some s ∨ ∃ id, v.refs id = some s
  ref : ∀ id s, v.refs id = some s → x ≠ some s ∧ v.page s = some id ∧ v.pins s = 1 ∧ v.latch s ≠ none
  latch : ∀ s, v.latch s ≠ none → x = some s ∨ ∃ id, v.refs id = some s
  wrote : ∀ s ∈ v.wrote, v.latch s = some true

/-- The slot `s` is the one more, and the page `id` is in it. -/
structure Pinned (p : Option (PageId × Bool)) (id : PageId) (s : ℕ) (v : Outlook) : Prop
    extends Holds p (some s) v where
  pins : v.pins s = 1
  page : v.page s = some id
  clear : s ∉ v.wrote

/-- The thread has not locked the table and has nothing to load or to save. -/
structure AtRest (v : Outlook) : Prop where
  table : v.table = none
  loading : v.loading = none
  saving : v.saving = none

/-- The thread has locked the table. -/
structure Locked (R : BufRules) (e : Bool) (v : Outlook) : Prop where
  table : v.table = some e
  loading : v.loading = none
  saving : v.saving = none
  tabs : Inv R v.tabs
  pages : ∀ s id, v.page s = some id → v.tabs.pageTable.lookup id = some s

variable {R : BufRules} {v : Outlook} {p : Option (PageId × Bool)} {id : PageId} {s : ℕ} {e : Bool}

theorem Locked.ne (h : v.Locked R e) : v.table ≠ none := by
  rw [h.table]
  simp

/-- A page that the thread does not refer to is not in a slot that the thread has pinned. -/
theorem Locked.not_ref (h : v.Locked R e) {x : Option ℕ} (hv : v.Holds p x) (hid : v.refs id = none)
    (hs : v.tabs.pageTable.lookup id = some s) (id' : PageId) : v.refs id' ≠ some s := by
  intro hr
  obtain ⟨-, hpage, -⟩ := hv.ref id' s hr
  obtain rfl := h.tabs.inj _ _ _ hs (h.pages s id' hpage)
  rw [hid] at hr
  cases hr

/-- The table has the page of a slot that the thread pins. -/
theorem Locked.pages_pin (h : v.Locked R e) (hs : v.tabs.pageTable.lookup id = some s) (s' : ℕ) (id' : PageId)
    (hs' : Function.update v.page s (some id) s' = some id') : v.tabs.pageTable.lookup id' = some s' := by
  by_cases e : s' = s
  · subst e
    obtain rfl : id = id' := by simpa using hs'
    exact hs
  · exact h.pages s' id' (by simpa [Function.update_of_ne e] using hs')

theorem Locked.pages_unpin (h : v.Locked R e) (s' : ℕ) (id' : PageId)
    (hs' : Function.update v.page s none s' = some id') : v.tabs.pageTable.lookup id' = some s' := by
  have hne : s' ≠ s := by
    rintro rfl
    simp at hs'
  exact h.pages s' id' (by simpa [Function.update_of_ne hne] using hs')

theorem Holds.unpinned (hv : v.Holds p none) (hs : ∀ id, v.refs id ≠ some s) : v.pins s = 0 := by
  by_contra hne
  rcases hv.pin s (Nat.pos_of_ne_zero hne) with hx | ⟨id, hr⟩
  · cases hx
  · exact hs id hr

/-- A slot that the thread has not pinned is none of those it refers to. -/
theorem Holds.not_ref {x : Option ℕ} (hv : v.Holds p x) (hs : v.pins s = 0) (id : PageId) : v.refs id ≠ some s := by
  intro hr
  obtain ⟨-, -, hone, -⟩ := hv.ref id s hr
  omega

theorem Holds.unlatched (hv : v.Holds p none) (hs : ∀ id, v.refs id ≠ some s) : v.latch s = none := by
  by_contra hne
  rcases hv.latch s hne with hx | ⟨id, hr⟩
  · cases hx
  · exact hs id hr

theorem Holds.clear {x : Option ℕ} (hv : v.Holds p x) (hs : v.latch s ≠ some true) : s ∉ v.wrote :=
  fun hw => hs (hv.wrote s hw)

/-- The thread pins one slot more. -/
theorem Holds.pinSlot (hv : v.Holds p none) (id : PageId) (hs : v.pins s = 0) {n : ℕ} (hn : n = 1) :
    Pinned p id s
      { v with pins := Function.update v.pins s n, page := Function.update v.page s (some id) } ∧ v.latch s = none := by
  subst hn
  have hnot := hv.not_ref hs
  have hlatch := hv.unlatched hnot
  refine ⟨⟨⟨hv.pinning, hv.fresh, ?_, ?_, ?_, hv.wrote⟩, ?_, ?_, ?_⟩, hlatch⟩
  · intro s' hs'
    by_cases e : s' = s
    · subst e
      exact .inl rfl
    · exact .inr ((hv.pin s' (by simpa [Function.update_of_ne e] using hs')).resolve_left (by simp))
  · intro id' s' hr
    have hne : s' ≠ s := by
      rintro rfl
      exact hnot id' hr
    obtain ⟨-, hpage, hpins, hl⟩ := hv.ref id' s' hr
    refine ⟨by simpa using Ne.symm hne, ?_, ?_, hl⟩
    · exact (Function.update_of_ne hne _ _).trans hpage
    · exact (Function.update_of_ne hne _ _).trans hpins
  · intro s' hs'
    exact .inr ((hv.latch s' hs').resolve_left (by simp))
  · exact Function.update_self _ _ _
  · exact Function.update_self _ _ _
  · exact hv.clear (by rw [hlatch]; simp)

/-- It latches the slot, or unlatches it. -/
theorem Pinned.setLatch (hv : v.Pinned p id s) (m : Option Bool) :
    Pinned p id s { v with latch := Function.update v.latch s m } := by
  refine ⟨⟨hv.pinning, hv.fresh, hv.pin, ?_, ?_, ?_⟩, hv.pins, hv.page, hv.clear⟩
  · intro id' s' hr
    obtain ⟨hx, hpage, hpins, hl⟩ := hv.ref id' s' hr
    have hne : s' ≠ s := by
      rintro rfl
      exact hx rfl
    exact ⟨hx, hpage, hpins, (Function.update_of_ne hne _ _).trans_ne hl⟩
  · intro s' hs'
    by_cases e : s' = s
    · subst e
      exact .inl rfl
    · exact hv.latch s' (by simpa [Function.update_of_ne e] using hs')
  · intro s' hs'
    have hne : s' ≠ s := by
      rintro rfl
      exact hv.clear hs'
    exact (Function.update_of_ne hne _ _).trans (hv.wrote s' hs')

/-- It unpins the slot. -/
theorem Pinned.unpin (hv : v.Pinned p id s) (hlatch : v.latch s = none) :
    Holds p none
      { v with pins := Function.update v.pins s (v.pins s - 1), page := Function.update v.page s none } := by
  refine ⟨hv.pinning, hv.fresh, ?_, ?_, ?_, hv.wrote⟩
  · intro s' hs'
    have hne : s' ≠ s := by
      rintro rfl
      simp [hv.pins] at hs'
    refine .inr ((hv.pin s' (by simpa [Function.update_of_ne hne] using hs')).resolve_left ?_)
    simpa using Ne.symm hne
  · intro id' s' hr
    obtain ⟨hx, hpage, hpins, hl⟩ := hv.ref id' s' hr
    have hne : s' ≠ s := by
      rintro rfl
      exact hx rfl
    refine ⟨by simp, ?_, ?_, hl⟩
    · exact (Function.update_of_ne hne _ _).trans hpage
    · exact (Function.update_of_ne hne _ _).trans hpins
  · intro s' hs'
    refine .inr ((hv.latch s' hs').resolve_left ?_)
    rintro hx
    obtain rfl := Option.some.inj hx
    exact hs' hlatch

/-- The slot that it has pinned is given to another page. -/
theorem Pinned.evict {key : PageId} {tabs : PageBuffer Unit} {sole clean : Finset ℕ} (hv : v.Pinned p key s) :
    Pinned p id s { taken { v with sole := sole, clean := clean } id s tabs with
      page := Function.update v.page s (some id) } := by
  refine ⟨⟨hv.pinning, hv.fresh, hv.pin, ?_, hv.latch, hv.wrote⟩, hv.pins, Function.update_self _ _ _, hv.clear⟩
  intro id' s' hr
  obtain ⟨hx, hpage, hpins, hl⟩ := hv.ref id' s' hr
  have hne : s' ≠ s := by
    rintro rfl
    exact hx rfl
  exact ⟨hx, (Function.update_of_ne hne _ _).trans hpage, hpins, hl⟩

/-! ### Rules -/

section Rules

variable {α β : Type} {Q : α → Outlook → Prop}

theorem always_cmd {c : BufCmd D β} {f : β → BufProg D α} (hc : Owed β c v)
    (h : ∀ a v', moves R β c v a v' → Always (moves R) Owed (f a) v' Q) :
    Always (moves R) Owed ((Prog.cmd c).bind f) v Q := always_call hc h

variable {f : Unit → BufProg D α}

/-- A thread that has nothing to load or to save locks the table. -/
theorem always_lockTable (hv : v.AtRest)
    (h : ∀ tabs, Locked R e { v with table := some e, tabs := tabs } →
      Always (moves R) Owed (f ()) { v with table := some e, tabs := tabs } Q) :
    Always (moves R) Owed ((Prog.cmd (.lockTable e)).bind f) v Q := by
  refine always_cmd hv.table ?_
  rintro - _ ⟨tabs, htabs, hpages, rfl⟩
  exact h tabs ⟨rfl, hv.loading, hv.saving, htabs, hpages⟩

theorem always_unlockTable {e' : Bool} (hv : v.Locked R e)
    (h : ∀ v', (∀ p x, v.Holds p x → v'.Holds p x) → (∀ p id s, v.Pinned p id s → v'.Pinned p id s) → v'.AtRest →
      v'.latch = v.latch → Always (moves R) Owed (f ()) v' Q) :
    Always (moves R) Owed ((Prog.cmd (.unlockTable e')).bind f) v Q := by
  refine always_cmd ⟨hv.ne, fun s hs => ?_⟩ ?_
  · rw [hv.loading] at hs
    cases hs
  rintro - _ rfl
  exact h _ (fun p x hx => { hx with }) (fun p id s hs => { hs with }) ⟨rfl, hv.loading, hv.saving⟩ rfl

theorem always_check {c : Bool} (hc : c = true) (h : Always (moves R) Owed (f ()) v Q) :
    Always (moves R) Owed ((Prog.cmd (.check c)).bind f) v Q := by
  refine always_cmd hc ?_
  rintro - _ rfl
  exact h

end Rules

/-! ### The functions of `pinPage` -/

section Paths

variable {α : Type} {Q : α → Outlook → Prop} {mode : LatchMode D} {skipLoad : Bool} {key : PageId}

/-- What a round ends in: it is as it was before, or the page is pinned and latched. -/
def Round (p : Option (PageId × Bool)) (id : PageId) : Bool ⊕ ℕ → Outlook → Prop
  | .inl _, v => v.Holds p none ∧ v.AtRest
  | .inr s, v => v.Pinned p id s ∧ v.AtRest ∧ v.latch s ≠ none

theorem Pinned.pos (hv : v.Pinned p id s) : 0 < v.pins s := by
  rw [hv.pins]
  exact Nat.one_pos

theorem always_latchPage {f : Unit → BufProg D α} (hv : v.Pinned p id s) (hrest : v.AtRest) (hlatch : v.latch s = none)
    (h : ∀ v', v'.Pinned p id s → v'.AtRest → v'.latch s ≠ none → Always (moves R) Owed (f ()) v' Q) :
    Always (moves R) Owed ((latchPage s mode).bind f) v Q := by
  have hlock : ∀ e, Always (moves R) Owed ((Prog.cmd (.lockPage s e)).bind f) v Q := by
    intro e
    refine always_cmd ⟨hlatch, hv.pos⟩ ?_
    rintro - _ rfl
    exact h _ (hv.setLatch _) { hrest with } (by simp)
  cases mode with
  | fixed e => exact hlock e
  | modeFunction g =>
    simp only [latchPage, Prog.bind_def, Prog.bind_assoc]
    refine always_cmd hv.pos ?_
    rintro e _ rfl
    exact hlock e

/-- The page has got its slot, and the table is still locked. -/
theorem always_loadAndLatch {f : Unit → BufProg D α} (hp : p = some (id, skipLoad)) (hv : v.Pinned p id s)
    (ht : v.table = some true) (hsaving : v.saving = none) (hlatch : v.latch s = none)
    (hload : v.loading = if p = some (id, true) then none else some s)
    (h : ∀ v', v'.Pinned p id s → v'.AtRest → v'.latch s ≠ none → Always (moves R) Owed (f ()) v' Q) :
    Always (moves R) Owed ((loadAndLatch id mode skipLoad s).bind f) v Q := by
  have htable : v.table ≠ none := by
    rw [ht]
    simp
  simp only [loadAndLatch, Prog.bind_def]
  cases skipLoad with
  | true =>
    rw [if_pos hp] at hload
    simp only [if_true, Prog.bind_assoc]
    refine always_cmd ⟨htable, fun s' hs' => ?_⟩ ?_
    · rw [hload] at hs'
      cases hs'
    rintro - _ rfl
    exact always_latchPage { hv with } ⟨rfl, hload, hsaving⟩ hlatch h
  | false =>
    rw [if_neg (by simp [hp])] at hload
    simp only [Bool.false_eq_true, if_false, Prog.bind_assoc]
    -- the page is latched before the table is unlocked
    refine always_cmd ⟨hlatch, hv.pos⟩ ?_
    rintro - _ rfl
    refine always_cmd ⟨htable, fun s' hs' => ?_⟩ ?_
    · obtain rfl : s = s' := Option.some.inj (hload.symm.trans hs')
      exact Function.update_self _ _ _
    rintro - _ rfl
    refine always_cmd ⟨hload, Function.update_self _ _ _, hv.page⟩ ?_
    rintro - _ rfl
    refine always_cmd ⟨by simp, hv.clear, fun id' hr => (hv.ref id' s hr).1 rfl, by simp⟩ ?_
    rintro - _ rfl
    have hunlatched := (hv.setLatch (some true)).setLatch none
    exact always_latchPage { hunlatched with } ⟨rfl, rfl, hsaving⟩ (Function.update_self _ _ _) h

/-- Case 1: the page is in memory. -/
theorem always_pinHit (hp : p = some (id, skipLoad)) (hv : v.Holds p none) (hl : v.Locked R e)
    (hs : v.tabs.pageTable.lookup id = some s) : Always (moves R) Owed (pinHit id mode e s) v (Round p id) := by
  have hnot := hl.not_ref hv (hv.fresh id skipLoad hp) hs
  have hzero := hv.unpinned hnot
  simp only [pinHit, Prog.bind_def, Prog.pure_def]
  refine always_cmd ⟨hl.ne, id, hs⟩ ?_
  rintro pins _ ⟨hpos, rfl⟩
  rw [hl.tabs.page_id id s hs]
  obtain ⟨hpin, hlatch⟩ := hv.pinSlot id hzero (n := v.pins s + 1) (by rw [hzero])
  refine always_check (decide_eq_true hpos) ?_
  split
  next hretry =>
    -- the first pin of a page needs the table exclusively
    refine always_cmd ⟨hpin.pos, hlatch, by simp [hl.saving]⟩ ?_
    rintro - _ rfl
    have hlocked : Locked R e
        { v with
          pins := Function.update (Function.update v.pins s (v.pins s + 1)) s (v.pins s + 1 - 1)
          page := Function.update (Function.update v.page s (some id)) s none } := by
      refine ⟨hl.table, hl.loading, hl.saving, hl.tabs, fun s' id' hs' => hl.pages_unpin (s := s) s' id' ?_⟩
      simpa only [Function.update_idem] using hs'
    have hback := hpin.unpin hlatch
    simp only [Function.update_self] at hback ⊢
    refine always_unlockTable hlocked fun v' hholds _ hrest _ => always_ret ⟨hholds p none hback, hrest⟩
  next hgo =>
    have hrest : ∀ w : Outlook, w.Locked R e → w.Pinned p id s → w.latch s = none → Always (moves R) Owed
        ((Prog.cmd (.unlockTable e)).bind fun _ => (latchPage s mode).bind fun _ => Prog.ret (.inr s)) w
        (Round p id) := by
      intro w hw hpinned hlatched
      refine always_unlockTable hw fun v' _ hpins hrest hsame => ?_
      refine always_latchPage (hpins p id s hpinned) hrest (by rw [hsame]; exact hlatched) ?_
      exact fun v'' hpinned' hrest' hlatched' => always_ret ⟨hpinned', hrest', hlatched'⟩
    split
    next hone =>
      have hex : e = true := by
        by_contra he
        exact hgo ⟨hone, by simpa using he⟩
      subst hex
      refine always_cmd ⟨hl.table, hs⟩ ?_
      rintro - _ rfl
      exact hrest _ ⟨hl.table, hl.loading, hl.saving, hl.tabs.reposition hs, hl.pages_pin hs⟩ { hpin with } hlatch
    next =>
      exact hrest _ ⟨hl.table, hl.loading, hl.saving, hl.tabs, hl.pages_pin hs⟩ { hpin with } hlatch

/-- A thread that has locked the table goes on to the next round. -/
theorem always_again {e' e'' : Bool} (hv : v.Holds p none) (hl : v.Locked R e) :
    Always (moves R) Owed ((Prog.cmd (.unlockTable e')).bind fun _ => Prog.ret (.inl e'') : BufProg D (Bool ⊕ ℕ)) v
      (Round p id) :=
  always_unlockTable hl fun _ hholds _ hrest _ => always_ret ⟨hholds p none hv, hrest⟩

/-- Case 2.1: there is a free slot. -/
theorem always_pinFree (hp : p = some (id, skipLoad)) (hv : v.Holds p none) (hl : v.Locked R e)
    (hid : v.tabs.pageTable.lookup id = none) (hspace : v.tabs.pageTable.entries.length < R.N) :
    Always (moves R) Owed (pinFree id mode skipLoad e) v (Round p id) := by
  have hfree : v.tabs.freeSlots.Nonempty := by
    have hcount := hl.tabs.count
    rw [← Finset.card_pos]
    omega
  simp only [pinFree, Prog.bind_def, Prog.pure_def]
  split
  · exact always_again hv hl
  next he =>
    obtain rfl : e = true := by simpa using he
    refine always_cmd ⟨hl.table, hl.loading, hid, hfree, skipLoad, hv.pinning.trans hp⟩ ?_
    rintro s _ ⟨hzero, rfl⟩
    have hslot : (v.tabs.takeFreeSlot id s).pageTable.lookup id = some s := by simp [PageBuffer.takeFreeSlot]
    have hname : ((v.tabs.takeFreeSlot id s).pages s).id = id := by simp [PageBuffer.takeFreeSlot]
    refine always_cmd trivial ?_
    rintro pins v' ⟨-, hsole, hv'⟩
    have hpins : pins = 0 := (hsole (Finset.mem_insert_self _ _)).trans hzero
    have hsame : v' = { v.taken id s (v.tabs.takeFreeSlot id s) with
        sole := insert s v.sole, clean := insert s v.clean } := by
      rw [hv']
      split
      · simp
      · rfl
    subst hsame
    refine always_check (decide_eq_true hpins) (always_cmd ⟨rfl, Finset.mem_insert_self _ _, hzero, id, hslot⟩ ?_)
    rintro - _ rfl
    obtain ⟨hpin, hlatch⟩ := hv.pinSlot id hzero (n := 1) rfl
    refine always_cmd ⟨hpin.pos, fun _ => hl.saving⟩ ?_
    rintro - _ (rfl | ⟨hclean, -⟩)
    · refine always_loadAndLatch hp ?_ hl.table hl.saving hlatch ?_ ?_
      · dsimp only [taken]
        rw [hname]
        exact { hpin with }
      · simp only [taken, hv.pinning]
      · exact fun v' hpinned hrest hlatched => always_ret ⟨hpinned, hrest, hlatched⟩
    · exact absurd (Finset.mem_insert_self _ _) hclean

theorem getPins_cases {pins : ℕ} {v' : Outlook} (h : moves (D := D) R ℕ (.getPins s) v pins v') :
    v.pins s ≤ pins ∧ ∃ sole, v' = { v with sole := sole } ∧ (v.table = some true → pins = v.pins s → s ∈ sole) := by
  obtain ⟨hle, -, rfl⟩ := h
  refine ⟨hle, ?_⟩
  split
  next => exact ⟨_, rfl, fun _ _ => Finset.mem_insert_self _ _⟩
  next hn => exact ⟨_, rfl, fun ht hpins => absurd ⟨ht, hpins⟩ hn⟩

theorem getDirty_cases {dirty : Bool} {v' : Outlook} (h : moves (D := D) R Bool (.getDirty s) v dirty v') :
    ∃ clean, v' = { v with clean := clean } ∧ (s ∈ v.sole → dirty = false → s ∈ clean) := by
  obtain ⟨-, rfl⟩ := h
  split
  next => exact ⟨_, rfl, fun _ _ => Finset.mem_insert_self _ _⟩
  next hn => exact ⟨_, rfl, fun hs hd => absurd ⟨hs, hd⟩ hn⟩

/-- The page that is found in the queue is not pinned by the thread. -/
theorem always_findUnpinned {w : Victims} {f : Option PageId → BufProg D α} (hv : v.Holds p none) (hl : v.Locked R e)
    (h : ∀ r v', v'.Holds p none → v'.Locked R e → v'.tabs = v.tabs →
      (∀ key, r = some key → ∃ s, (v.tabs.queue w).Has key s ∧ v'.pins s = 0) → Always (moves R) Owed (f r) v' Q) :
    Always (moves R) Owed ((findUnpinned w).bind f) v Q := by
  have hscan : ∀ (es : List (QueueNode PageId ℕ)) (g : Option (QueueNode PageId ℕ) → BufProg D α) (v' : Outlook),
      v'.Holds p none → v'.Locked R e → v'.tabs = v.tabs →
      (∀ r v'', v''.Holds p none → v''.Locked R e → v''.tabs = v.tabs →
        (∀ node, r = some node → node ∈ es ∧ v''.pins node.value = 0) → Always (moves R) Owed (g r) v'' Q) →
      Always (moves R) Owed (Prog.bind (es.findM? fun node =>
        (Prog.cmd (.getPins node.value)).bind fun pins => Prog.ret (decide (pins = 0))) g) v' Q := by
    intro es
    induction es with
    | nil =>
      intro g v' hv' hl' htabs hg
      exact hg none v' hv' hl' htabs (by simp)
    | cons node es ih =>
      intro g v' hv' hl' htabs hg
      rw [List.findM?, Prog.bind_def, Prog.bind_assoc, Prog.bind_assoc]
      refine always_cmd trivial fun pins v'' hpins => ?_
      obtain ⟨hle, sole, rfl, -⟩ := getPins_cases hpins
      rw [Prog.ret_bind]
      split
      next hz =>
        refine hg _ _ { hv' with } { hl' with } htabs ?_
        rintro _ ⟨⟩
        have hz : pins = 0 := by simpa using hz
        exact ⟨List.mem_cons_self, Nat.le_zero.mp (hz ▸ hle)⟩
      next =>
        refine ih g _ { hv' with } { hl' with } htabs fun r v'' hv'' hl'' htabs'' hr => hg r v'' hv'' hl'' htabs'' ?_
        intro node' hnode
        exact ⟨List.mem_cons_of_mem _ (hr node' hnode).1, (hr node' hnode).2⟩
  simp only [findUnpinned, Queue.findOne, Prog.bind_def, Prog.pure_def, Prog.bind_assoc]
  refine always_cmd hl.ne ?_
  rintro q v ⟨rfl, rfl⟩
  refine hscan _ _ _ hv hl rfl fun r v' hv' hl' htabs hr => ?_
  rw [Prog.ret_bind]
  refine h _ _ hv' hl' htabs ?_
  intro key hkey
  obtain ⟨node, hnode, rfl⟩ := Option.map_eq_some_iff.mp hkey
  obtain ⟨hmem, hzero⟩ := hr node hnode
  exact ⟨node.value, ⟨node, List.mem_reverse.mp hmem, rfl, rfl⟩, hzero⟩

/-- The victim is saved if it is dirty, and then the table is locked exclusively. -/
theorem always_writeBack {f : Unit → BufProg D α} (hv : v.Pinned p key s) (hl : v.Locked R e)
    (hlatch : v.latch s = none)
    (h : ∀ v', v'.Pinned p key s → v'.Locked R true → v'.latch s = none → Always (moves R) Owed (f ()) v' Q) :
    Always (moves R) Owed ((writeBack e s).bind f) v Q := by
  have hrelock : ∀ v' : Outlook, v'.Pinned p key s → v'.AtRest → v'.latch s = none →
      Always (moves R) Owed ((Prog.cmd (.lockTable true)).bind f) v' Q := by
    intro v' hpinned hrest hlatched
    exact always_lockTable hrest fun tabs hlocked => h _ { hpinned with } hlocked hlatched
  simp only [writeBack, Prog.bind_def, Prog.bind_assoc]
  refine always_cmd trivial fun dirty v' hdirty => ?_
  obtain ⟨clean, rfl, -⟩ := getDirty_cases hdirty
  split
  next =>
    simp only [Prog.bind_assoc]
    refine always_cmd ⟨hv.pos, fun _ => hl.saving⟩ fun _ v' hclean => ?_
    -- the page is saved whether or not another thread has marked it as clean
    obtain ⟨saving, hsaving, rfl⟩ : ∃ saving, (saving = none ∨ saving = some s) ∧
        v' = { v with clean := clean, saving := saving } := by
      rcases hclean with rfl | ⟨-, rfl⟩
      · exact ⟨none, .inl rfl, by rw [← hl.saving]⟩
      · exact ⟨some s, .inr rfl, rfl⟩
    refine always_cmd ⟨hlatch, hv.pos⟩ ?_
    rintro - _ rfl
    refine always_cmd ⟨hl.ne, fun s' hs' => ?_⟩ ?_
    · exact absurd (hl.loading.symm.trans hs') (by simp)
    rintro - _ rfl
    refine always_cmd ⟨Function.update_self _ _ _, ⟨key, hv.page⟩, by simp [hl.loading], hsaving⟩ ?_
    rintro - _ rfl
    refine always_cmd ⟨by simp, hv.clear, fun id' hr => (hv.ref id' s hr).1 rfl, by simp [hl.loading]⟩ ?_
    rintro - _ rfl
    have hunlatched := (hv.setLatch (some false)).setLatch none
    exact hrelock _ { hunlatched with } ⟨rfl, hl.loading, rfl⟩ (Function.update_self _ _ _)
  next =>
    split
    · simp only [Prog.bind_assoc]
      have hl' : Locked R e { v with clean := clean } := { hl with }
      refine always_unlockTable hl' fun v' _ hpins hrest hsame => ?_
      exact hrelock v' (hpins p key s { hv with }) hrest (by rw [hsame]; exact hlatch)
    next he =>
      obtain rfl : e = true := by simpa using he
      exact h _ { hv with } { hl with } hlatch

/-- Only a page that nobody else has pinned and that is clean is evicted. -/
theorem always_stillEvictable {w : Victims} {f : Bool → BufProg D α} (hv : v.Pinned p key s) (hl : v.Locked R true)
    (htrue : ∀ sole clean, v.tabs.pageTable.lookup id = none → (v.tabs.queue w).Has key s → s ∈ clean →
      Always (moves R) Owed (f true) { v with sole := sole, clean := clean } Q)
    (hfalse : ∀ sole clean, Always (moves R) Owed (f false) { v with sole := sole, clean := clean } Q) :
    Always (moves R) Owed ((stillEvictable w key id s).bind f) v Q := by
  simp only [stillEvictable, Prog.bind_def, Prog.pure_def, Prog.bind_assoc]
  refine always_cmd hl.ne ?_
  rintro a v ⟨rfl, rfl⟩
  split
  · exact hfalse _ _
  next hid =>
    have hid : v.tabs.pageTable.lookup id = none := by simpa using hid
    simp only [Prog.bind_assoc]
    refine always_cmd hl.ne ?_
    rintro q v ⟨rfl, rfl⟩
    split
    · exact hfalse _ _
    next hcontains =>
      obtain ⟨s', hs'⟩ := (hl.tabs.queue_ok w).contains_iff.mp (by simpa using hcontains)
      -- the slot that the queue has for the page is the one in which the thread has pinned it
      obtain rfl : s' = s :=
        Option.some.inj ((hl.tabs.lookup_of_has hs').symm.trans (hl.pages s key hv.page))
      simp only [Prog.bind_assoc]
      refine always_cmd trivial fun pins v' hpins => ?_
      obtain ⟨-, sole, rfl, hsole⟩ := getPins_cases hpins
      split
      · exact hfalse _ _
      next hone =>
        have hone : pins = 1 := by simpa using hone
        simp only [Prog.bind_assoc]
        refine always_cmd trivial fun dirty v' hdirty => ?_
        obtain ⟨clean, rfl, hclean⟩ := getDirty_cases hdirty
        rw [Prog.ret_bind]
        cases dirty with
        | true => exact hfalse _ _
        | false => exact htrue _ _ hid hs' (hclean (hsole hl.table (hone.trans hv.pins.symm)) rfl)

/-- Cases 2.2 and 2.3: a page is evicted that was found without pins. -/
theorem always_pinEvict {w : Victims} (hp : p = some (id, skipLoad)) (hv : v.Holds p none) (hl : v.Locked R e)
    (hkey : (v.tabs.queue w).Has key s) (hzero : v.pins s = 0) :
    Always (moves R) Owed (pinEvict id mode skipLoad e w key) v (Round p id) := by
  have hslot := hl.tabs.lookup_of_has hkey
  simp only [pinEvict, Prog.bind_def, Prog.pure_def]
  refine always_cmd hl.ne ?_
  rintro q v ⟨rfl, rfl⟩
  rw [(hl.tabs.queue_ok w).find_eq_some.mpr hkey]
  refine always_cmd ⟨hl.ne, key, hslot⟩ ?_
  rintro pins _ ⟨-, rfl⟩
  rw [hl.tabs.page_id key s hslot]
  obtain ⟨hpin, hlatch⟩ := hv.pinSlot key hzero (n := v.pins s + 1) (by rw [hzero])
  have hlocked : Locked R e
      { v with
        pins := Function.update v.pins s (v.pins s + 1)
        page := Function.update v.page s (some key) } :=
    ⟨hl.table, hl.loading, hl.saving, hl.tabs, hl.pages_pin hslot⟩
  refine always_writeBack hpin hlocked hlatch fun v' hpin' hl' hlatch' => ?_
  refine always_stillEvictable hpin' hl' ?_ ?_
  · intro sole clean hid hkey' hclean
    rw [if_pos rfl]
    refine always_cmd ⟨hl'.table, hl'.loading, hid, hkey', hclean, hpin'.pos, by simp [hl'.saving], hpin'.clear,
      fun id' hr => (hpin'.ref id' s hr).1 rfl, skipLoad, hpin'.pinning.trans hp⟩ ?_
    rintro - _ rfl
    refine always_cmd ⟨hpin'.pos, fun _ => hl'.saving⟩ ?_
    rintro - _ (rfl | ⟨hn, -⟩)
    · refine always_loadAndLatch hp ?_ hl'.table hl'.saving hlatch' ?_ ?_
      · exact hpin'.evict
      · simp only [taken, hpin'.pinning]
      · exact fun v'' hpinned hrest hlatched => always_ret ⟨hpinned, hrest, hlatched⟩
    · exact absurd hclean hn
  · intro sole clean
    rw [if_neg (by simp)]
    refine always_cmd ⟨hpin'.pos, hlatch', by simp [hl'.saving]⟩ ?_
    rintro - _ rfl
    have hback := hpin'.unpin hlatch'
    exact always_again { hback with } ⟨hl'.table, hl'.loading, hl'.saving, hl'.tabs, hl'.pages_unpin⟩

/-- A round of `pinPage`. -/
theorem always_pinAttempt (hp : p = some (id, skipLoad)) (hv : v.Holds p none) (hrest : v.AtRest) :
    Always (moves R) Owed (pinAttempt id mode skipLoad e) v (Round p id) := by
  simp only [pinAttempt, Prog.bind_def]
  refine always_lockTable hrest fun tabs hl => ?_
  have hv' : Holds p none { v with table := some e, tabs := tabs } := { hv with }
  refine always_cmd hl.ne ?_
  rintro a v ⟨rfl, rfl⟩
  cases hid : tabs.pageTable.lookup id with
  | some s => exact always_pinHit hp hv' hl hid
  | none =>
    refine always_cmd hl.ne ?_
    rintro space _ ⟨rfl, rfl⟩
    split
    next hspace => exact always_pinFree hp hv' hl hid (of_decide_eq_true hspace)
    next =>
      refine always_findUnpinned hv' hl fun r v₁ hv₁ hl₁ htabs₁ hr => ?_
      cases r with
      | some key =>
        obtain ⟨s, hkey, hzero⟩ := hr key rfl
        exact always_pinEvict hp hv₁ hl₁ (htabs₁ ▸ hkey) hzero
      | none =>
        refine always_findUnpinned hv₁ hl₁ fun r v₂ hv₂ hl₂ htabs₂ hr => ?_
        cases r with
        | some key =>
          obtain ⟨s, hkey, hzero⟩ := hr key rfl
          exact always_pinEvict hp hv₂ hl₂ (htabs₂ ▸ hkey) hzero
        | none => exact always_call rfl fun x => x.elim

end Paths

/-! ### The operations -/

/-- Between two operations the thread has pinned and latched exactly the pages that it refers to. -/
structure Idle (v : Outlook) : Prop where
  holds : v.Holds none none
  rest : v.AtRest

theorem always_pinPage {mode : LatchMode D} {skipLoad : Bool} (hp : p = some (id, skipLoad)) (hv : v.Holds p none)
    (hrest : v.AtRest) :
    Always (moves R) Owed (pinPage id mode skipLoad) v fun s v' => Round p id (.inr s) v' := by
  refine always_loop (fun _ v => v.Holds p none ∧ v.AtRest) ?_ ⟨hv, hrest⟩
  intro e v hv
  refine (always_pinAttempt hp hv.1 hv.2).mono ?_
  rintro (e' | s) v' h
  · exact h
  · exact always_ret h

/-- The page that was pinned is one that the thread refers to. -/
theorem Pinned.leave {skipLoad : Bool} (hv : v.Pinned (some (id, skipLoad)) id s) (hlatch : v.latch s ≠ none) :
    Holds none none { v with refs := Function.update v.refs id (some s), pinning := none } := by
  have hrefs : ∀ id', id' = id ∧ Function.update v.refs id (some s) id' = some s ∨
      id' ≠ id ∧ Function.update v.refs id (some s) id' = v.refs id' := by
    intro id'
    by_cases e : id' = id
    · subst e
      exact .inl ⟨rfl, Function.update_self _ _ _⟩
    · exact .inr ⟨e, Function.update_of_ne e _ _⟩
  have hstill : ∀ s', some s = some s' ∨ (∃ id', v.refs id' = some s') →
      none = some s' ∨ ∃ id', Function.update v.refs id (some s) id' = some s' := by
    rintro s' (hs' | ⟨id', hr⟩)
    · exact .inr ⟨id, (Function.update_self _ _ _).trans hs'⟩
    · rcases hrefs id' with ⟨rfl, -⟩ | ⟨-, e⟩
      · rw [hv.fresh id' skipLoad rfl] at hr
        cases hr
      · exact .inr ⟨id', e.trans hr⟩
  refine ⟨rfl, by simp, fun s' hs' => hstill s' (hv.pin s' hs'), ?_, fun s' hs' => hstill s' (hv.latch s' hs'),
    hv.wrote⟩
  intro id' s' hr
  rcases hrefs id' with ⟨rfl, e⟩ | ⟨-, e⟩
  · obtain rfl := Option.some.inj (e.symm.trans hr)
    exact ⟨by simp, hv.page, hv.pins, hlatch⟩
  · exact ⟨by simp, (hv.ref id' s' (e.symm.trans hr)).2⟩

/-- The page is one that the thread is about to unpin. -/
theorem Holds.giveUp (hv : v.Holds none none) (hr : v.refs id = some s) {wrote : Finset ℕ} (hsub : wrote ⊆ v.wrote)
    (hclear : s ∉ wrote) :
    Pinned none id s { v with refs := Function.update v.refs id none, wrote := wrote } := by
  obtain ⟨-, hpage, hpins, -⟩ := hv.ref id s hr
  have hother : ∀ s' id', Function.update v.refs id none id' = some s' → id' ≠ id ∧ v.refs id' = some s' := by
    intro s' id' hr'
    have hne : id' ≠ id := by
      rintro rfl
      simp at hr'
    exact ⟨hne, by rwa [Function.update_of_ne hne] at hr'⟩
  have hstill : ∀ s', none = some s' ∨ (∃ id', v.refs id' = some s') →
      some s = some s' ∨ ∃ id', Function.update v.refs id none id' = some s' := by
    rintro s' (hs' | ⟨id', hr'⟩)
    · cases hs'
    · by_cases e : id' = id
      · subst e
        exact .inl (hr.symm.trans hr')
      · exact .inr ⟨id', (Function.update_of_ne e _ _).trans hr'⟩
  refine ⟨⟨hv.pinning, by simp, fun s' hs' => hstill s' (hv.pin s' hs'), ?_,
    fun s' hs' => hstill s' (hv.latch s' hs'), fun s' hs' => hv.wrote s' (hsub hs')⟩, hpins, hpage, hclear⟩
  intro id' s' hr'
  obtain ⟨hne, hr'⟩ := hother s' id' hr'
  obtain ⟨-, hpage', hrest⟩ := hv.ref id' s' hr'
  refine ⟨?_, hpage', hrest⟩
  rintro hx
  obtain rfl := Option.some.inj hx
  exact hne (Option.some.inj (hpage'.symm.trans hpage))

theorem always_unpinPage {w : Outlook} {dirty : Bool} (hv : v.Idle) (hr : v.refs id = some s)
    (hdirty : s ∈ v.wrote → dirty = true) (hw : w = { v with refs := Function.update v.refs id none }) :
    Always (moves R) Owed (unpinPage (D := D) s dirty) w fun _ v' => v'.Idle := by
  subst hw
  obtain ⟨-, -, hpins, hlatch⟩ := hv.holds.ref id s hr
  have hend : ∀ w : Outlook, w.Pinned none id s → w.AtRest → w.latch s ≠ none →
      Always (moves R) Owed ((Prog.cmd (.unlockPage s)).bind fun _ => Prog.cmd (.decPins s) : BufProg D Unit) w
        fun _ v' => v'.Idle := by
    intro w hpinned hrest hlatched
    refine always_cmd ⟨hlatched, hpinned.clear, fun id' hr' => (hpinned.ref id' s hr').1 rfl,
      by simp [hrest.loading]⟩ ?_
    rintro - _ rfl
    refine always_call ⟨hpinned.pos, Function.update_self _ _ _, by simp [hrest.saving]⟩ ?_
    rintro - _ rfl
    have hback := (hpinned.setLatch none).unpin (Function.update_self _ _ _)
    exact always_ret ⟨{ hback with }, { hrest with }⟩
  simp only [unpinPage, Prog.bind_def]
  refine always_cmd trivial fun pins v' hv' => ?_
  obtain ⟨hle, sole, rfl, -⟩ := getPins_cases hv'
  refine always_check (decide_eq_true (hpins ▸ hle)) ?_
  split
  next hd =>
    refine always_cmd ⟨by simp [hpins], by simp⟩ ?_
    rintro - _ rfl
    have hpinned := hv.holds.giveUp hr (Finset.erase_subset s v.wrote) (Finset.notMem_erase s v.wrote)
    exact hend _ { hpinned with } { hv.rest with } hlatch
  next hd =>
    have hpinned := hv.holds.giveUp hr (Finset.Subset.refl v.wrote) fun h => hd (hdirty h)
    exact hend _ { hpinned with } { hv.rest with } hlatch

theorem always_shared {α : Type} {Q : α → Outlook → Prop} {prog : BufProg D α} (h : Always (moves R) Owed prog v Q) :
    Always (step R) Proper prog.shared v Q := Always.lift h

/-- No operation issues a command that its thread must not issue. -/
theorem always_clientOp (op : ClientOp D) (hv : v.Idle) :
    Always (step R) Proper (clientOp op) v fun _ v' => v'.Idle := by
  cases op with
  | createPage =>
    refine always_call trivial ?_
    rintro - _ rfl
    exact always_ret hv
  | pinPage id mode skipLoad =>
    refine always_call hv.holds.pinning ?_
    rintro - _ ⟨hnone, rfl⟩
    have hholds : Holds (some (id, skipLoad)) none { v with pinning := some (id, skipLoad) } := by
      refine ⟨rfl, ?_, hv.holds.pin, hv.holds.ref, hv.holds.latch, hv.holds.wrote⟩
      rintro id' b ⟨⟩
      exact hnone
    rw [Prog.ret_bind]
    refine always_bind ((always_shared (always_pinPage rfl hholds { hv.rest with })).mono ?_)
    rintro s v' ⟨hpinned, hrest, hlatch⟩
    refine always_call ⟨hpinned.page, hlatch, by simp [hrest.loading], skipLoad, hpinned.pinning⟩ ?_
    rintro - _ rfl
    exact always_ret ⟨hpinned.leave hlatch, { hrest with }⟩
  | unpinPage id dirty =>
    refine always_call hv.holds.pinning ?_
    rintro s _ ⟨hr, hdirty, rfl⟩
    rw [Prog.ret_bind]
    exact always_shared (always_unpinPage hv hr hdirty rfl)
  | read id =>
    refine always_call hv.holds.pinning ?_
    rintro s v ⟨hr, rfl⟩
    refine always_call ⟨(hv.holds.ref id s hr).2.2.2, by simp [hv.rest.loading]⟩ ?_
    rintro - _ rfl
    exact always_ret hv
  | write id d =>
    refine always_call hv.holds.pinning ?_
    rintro s v ⟨hr, hlatch, rfl⟩
    refine always_call ⟨hlatch, ⟨id, hr⟩, by simp [hv.rest.loading]⟩ ?_
    rintro - _ rfl
    refine always_ret ⟨⟨hv.holds.pinning, hv.holds.fresh, hv.holds.pin, hv.holds.ref, hv.holds.latch, ?_⟩,
      { hv.rest with }⟩
    intro s' hs'
    rcases Finset.mem_insert.mp hs' with rfl | hs'
    · exact hlatch
    · exact hv.holds.wrote s' hs'

end Outlook

end BEpsilon.Buffer
