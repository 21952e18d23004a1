import BEpsilon.Buffer.Caching

/-!
# BEpsilon.Buffer.Client — one thread: caching is invisible

A `Client` is the page buffer together with what one thread knows about its pages: the slots it has
pinned and whether it wrote to them, the pages it pinned before, and the data of every initialised
page at its last `unpinPage`.  `Client.Step` are its calls: no page is pinned twice at once, a page
that was written is unpinned dirty, `skipLoad` is only used for the first pin.
-/

namespace BEpsilon.Buffer

open PageBuffer

variable {D : Type}

structure Client (D : Type) where
  buf : PageBuffer D
  /-- slot of a pinned page, and was it written since the pin? -/
  pinned : PageId → Option (ℕ × Bool)
  used : PageId → Bool
  /-- the data of an initialised page at its last unpin -/
  last : PageId → Option D

namespace Client

/-- A client of a buffer on a fresh directory. -/
def init (R : BufRules) (blocks : PageId → D) (zero : D) : Client D :=
  { buf := new R blocks 0 zero, pinned := fun _ => none, used := fun _ => false
    last := fun _ => none }

/-- May the client pin the page now? -/
structure MayPin (R : BufRules) (c : Client D) (id : PageId) (skipLoad : Bool) : Prop where
  created : ∃ i < c.buf.created, R.ids i = id
  once : c.pinned id = none
  first : skipLoad = true → c.used id = false

/-- The calls of the client that return. -/
inductive Step (R : BufRules) : Client D → Client D → Prop
  | createPage {c : Client D} {id : PageId} {b' : PageBuffer D}
      (h : Returns (handler R) (Prog.cmd .createBlock) c.buf id b') : Step R c { c with buf := b' }
  | pinPage {c : Client D} {id : PageId} {mode : LatchMode D} {skipLoad : Bool} {s : ℕ}
      {b' : PageBuffer D} (hmay : c.MayPin R id skipLoad)
      (h : Returns (handler R) (Buffer.pinPage id mode skipLoad) c.buf s b') :
      Step R c { c with
        buf := b'
        pinned := Function.update c.pinned id (some (s, false))
        used := Function.update c.used id true }
  | write {c : Client D} {id : PageId} {s : ℕ} {w : Bool} {d : D} {b' : PageBuffer D}
      (hp : c.pinned id = some (s, w))
      (h : Returns (handler R) (Prog.cmd (.writePage s d)) c.buf () b') :
      Step R c { c with buf := b', pinned := Function.update c.pinned id (some (s, true)) }
  | unpinPage {c : Client D} {id : PageId} {s : ℕ} {w dirty : Bool} {b' : PageBuffer D}
      (hp : c.pinned id = some (s, w)) (hw : w = true → dirty = true)
      (h : Returns (handler R) (Buffer.unpinPage s dirty) c.buf () b') :
      Step R c { c with
        buf := b'
        pinned := Function.update c.pinned id none
        last := if dirty || (c.last id).isSome then
          Function.update c.last id (some (b'.pages s).data) else c.last }
  | flush {c : Client D} {b' : PageBuffer D} (h : Returns (handler R) (Buffer.flush R) c.buf () b') :
      Step R c { c with buf := b' }

/-- The states that calls of the client lead to. -/
inductive Reach (R : BufRules) (c₀ : Client D) : Client D → Prop
  | refl : Reach R c₀ c₀
  | step {c c' : Client D} (h : Reach R c₀ c) (hs : Step R c c') : Reach R c₀ c'

/-- The invariant of a client. -/
structure Ok (R : BufRules) (c : Client D) : Prop where
  inv : Inv R c.buf
  unpinned : ∀ id, c.pinned id = none → Unpinned c.buf id
  pins : ∀ id s w, c.pinned id = some (s, w) →
    c.buf.pageTable.lookup id = some s ∧ (c.buf.pages s).pins = 1
  pinned_used : ∀ id, c.pinned id ≠ none → c.used id = true
  last_used : ∀ id, c.last id ≠ none → c.used id = true
  backed : ∀ id d, c.last id = some d → Backed c.buf id d
  cached : ∀ id d, c.last id = some d → (∀ s, c.pinned id ≠ some (s, true)) → Cached c.buf id d

theorem ok_init (R : BufRules) (blocks : PageId → D) (zero : D) : Ok R (init R blocks zero) where
  inv := inv_new R blocks 0 zero
  unpinned id _ s h := by simp [init, new] at h
  pins id s w h := by simp [init] at h
  pinned_used id h := by simp [init] at h
  last_used id h := by simp [init] at h
  backed id d h := by simp [init] at h
  cached id d h := by simp [init] at h

variable {R : BufRules} {c c' : Client D} {id : PageId} {skipLoad : Bool} {mode : LatchMode D} {s : ℕ}
  {b' : PageBuffer D} {d : D}

/-- What a `pinPage` that returns has done. -/
theorem Ok.pinPost (hc : c.Ok R) (hmay : c.MayPin R id skipLoad)
    (h : Returns (handler R) (Buffer.pinPage id mode skipLoad) c.buf s b') :
    PinPost R c.buf b' id mode skipLoad s := by
  by_cases hroom : c.buf.pageTable.lookup id ≠ none ∨ ∃ s < R.N, (c.buf.pages s).pins = 0
  · exact h.of_runs (pinPage_returns hc.inv (hc.unpinned id hmay.once) hroom)
  · obtain ⟨hid, hno⟩ := not_or.mp hroom
    have hraise := @pinPage_raises _ _ _ _ mode skipLoad hc.inv (not_not.mp hid)
      fun s hs hp => hno ⟨s, hs, hp⟩
    obtain ⟨n, hn⟩ := h
    exact absurd ⟨n, s, b', hn, trivial⟩ (hraise.not_runs (P := fun _ _ => True))

/-- An initialised page is pinned with its last data. -/
theorem Ok.holds_pin (hc : c.Ok R) (hmay : c.MayPin R id skipLoad) (hlast : c.last id = some d)
    (hP : PinPost R c.buf b' id mode skipLoad s) : Backed b' id d ∧ Cached b' id d := by
  refine hP.self (.inl ?_) d (hc.backed id d hlast) (hc.cached id d hlast (by simp [hmay.once]))
  by_contra hskip
  have := hmay.first (by simpa using hskip)
  rw [hc.last_used id (by simp [hlast])] at this
  simp at this

theorem Ok.step_pin (hc : c.Ok R) (hmay : c.MayPin R id skipLoad)
    (hP : PinPost R c.buf b' id mode skipLoad s) :
    Ok R { c with
      buf := b'
      pinned := Function.update c.pinned id (some (s, false))
      used := Function.update c.used id true } := by
  have hpinned : ∀ id' s' w, id' ≠ id → c.pinned id' = some (s', w) → s' ≠ s := by
    rintro id' s' w - h rfl
    have := (hc.pins id' _ w h).2
    rw [hP.was_free] at this
    simp at this
  have hothers : ∀ id', id' ≠ id → ∀ d, c.last id' = some d → Backed b' id' d ∧
      ((∀ s, c.pinned id' ≠ some (s, true)) → Cached b' id' d) := by
    intro id' e d h
    by_cases hw : ∀ s, c.pinned id' ≠ some (s, true)
    · have h' := hP.others id' e d d (hc.backed id' d h) (hc.cached id' d h hw) fun _ => rfl
      exact ⟨h'.1, fun _ => h'.2⟩
    · -- a page that is being written is backed by its last data
      obtain ⟨s', hs'⟩ := not_forall.mp hw
      obtain ⟨hlook, hp⟩ := hc.pins id' s' true (not_not.mp hs')
      have hcached : Cached c.buf id' (c.buf.pages s').data := fun s'' h'' => by
        rw [Option.some.inj (hlook.symm.trans h'')]
      refine ⟨(hP.others id' e d _ (hc.backed id' d h) hcached fun hun => ?_).1, fun h => absurd h hw⟩
      rw [hun s' hlook] at hp
      simp at hp
  refine ⟨hP.inv, fun id' h s' hs' => ?_, fun id' s' w h => ?_, fun id' h => ?_, fun id' h => ?_,
    fun id' d h => ?_, fun id' d h hw => ?_⟩
  all_goals simp only at *
  · have e : id' ≠ id := by rintro rfl; simp at h
    rw [Function.update_of_ne e] at h
    have hs := hP.kept id' e s' hs'
    have hne : s' ≠ s := by
      rintro rfl
      exact e (hP.inv.inj id' id _ hs' hP.slot)
    rw [hP.pages s' hne]
    exact hc.unpinned id' h s' hs
  · by_cases e : id' = id
    · subst e
      obtain ⟨rfl, rfl⟩ := by simpa using h
      exact ⟨hP.slot, hP.pins⟩
    · rw [Function.update_of_ne e] at h
      obtain ⟨h₁, h₂⟩ := hc.pins id' s' w h
      refine ⟨hP.pinned id' s' h₁ (by omega), ?_⟩
      rw [hP.pages s' (hpinned id' s' w e h)]
      exact h₂
  · by_cases e : id' = id
    · subst e; simp
    · rw [Function.update_of_ne e] at h ⊢
      exact hc.pinned_used id' h
  · by_cases e : id' = id
    · subst e; simp
    · rw [Function.update_of_ne e]
      exact hc.last_used id' h
  · by_cases e : id' = id
    · subst e
      exact (hc.holds_pin hmay h hP).1
    · exact (hothers id' e d h).1
  · by_cases e : id' = id
    · subst e
      exact (hc.holds_pin hmay h hP).2
    · refine (hothers id' e d h).2 fun s hs => hw s ?_
      rw [Function.update_of_ne e, hs]

/-- Changing the page in one pinned slot moves no other page. -/
theorem Ok.others (hc : c.Ok R) {w : Bool} (hp : c.pinned id = some (s, w)) {f : Page D → Page D}
    {id' : PageId} (e : id' ≠ id) :
    (∀ d, Backed c.buf id' d → Backed (c.buf.modifyPage s f) id' d) ∧
      (∀ d, Cached c.buf id' d → Cached (c.buf.modifyPage s f) id' d) ∧
      (Unpinned c.buf id' → Unpinned (c.buf.modifyPage s f) id') ∧
      ∀ s', c.buf.pageTable.lookup id' = some s' → (c.buf.modifyPage s f).pages s' = c.buf.pages s' := by
  have hne : ∀ s', c.buf.pageTable.lookup id' = some s' → s' ≠ s := by
    rintro s' h rfl
    exact e (hc.inv.inj id' id _ h (hc.pins id _ w hp).1)
  refine ⟨fun d hB => ⟨hB.1, fun s' h hd => hB.2 s' h ?_⟩, fun d hC s' h => ?_, fun hU s' h => ?_,
    fun s' h => modifyPage_pages_ne (hne s' h)⟩
  · rwa [modifyPage_pages_ne (hne s' h)] at hd
  · rw [modifyPage_pages_ne (hne s' h)]
    exact hC s' h
  · rw [modifyPage_pages_ne (hne s' h)]
    exact hU s' h

theorem Ok.step_write (hc : c.Ok R) {w : Bool} (hp : c.pinned id = some (s, w)) (d₁ : D) :
    Ok R { c with
      buf := c.buf.modifyPage s fun page => { page with data := d₁ }
      pinned := Function.update c.pinned id (some (s, true)) } := by
  obtain ⟨hlook, hpin⟩ := hc.pins id s w hp
  have hI : Inv R (c.buf.modifyPage s fun page => { page with data := d₁ }) :=
    hc.inv.modifyPage rfl (hc.inv.latch s) (hc.inv.free_pins s)
  refine ⟨hI, fun id' h => ?_, fun id' s' w' h => ?_, fun id' h => ?_, hc.last_used,
    fun id' d h => ?_, fun id' d h hw => ?_⟩
  all_goals simp only at *
  · have e : id' ≠ id := by rintro rfl; simp at h
    rw [Function.update_of_ne e] at h
    exact (hc.others hp e).2.2.1 (hc.unpinned id' h)
  · by_cases e : id' = id
    · subst e
      obtain ⟨rfl, rfl⟩ := by simpa using h
      exact ⟨hlook, by simpa using hpin⟩
    · rw [Function.update_of_ne e] at h
      obtain ⟨h₁, h₂⟩ := hc.pins id' s' w' h
      exact ⟨h₁, by rw [(hc.others hp e).2.2.2 s' h₁]; exact h₂⟩
  · by_cases e : id' = id
    · subst e
      exact hc.pinned_used id' (by simp [hp])
    · rw [Function.update_of_ne e] at h
      exact hc.pinned_used id' h
  · by_cases e : id' = id
    · subst e
      have hB := hc.backed id' d h
      refine ⟨hB.1, fun s' hs' hd => hB.2 s' hs' ?_⟩
      obtain rfl := Option.some.inj (hlook.symm.trans hs')
      simpa using hd
    · exact (hc.others hp e).1 d (hc.backed id' d h)
  · have e : id' ≠ id := by rintro rfl; exact hw s (by simp)
    refine (hc.others hp e).2.1 d (hc.cached id' d h fun s' hs' => hw s' ?_)
    rw [Function.update_of_ne e, hs']

theorem Ok.step_unpin (hc : c.Ok R) {w dirty : Bool} (hp : c.pinned id = some (s, w))
    (hw : w = true → dirty = true) :
    Ok R { c with
      buf := c.buf.modifyPage s fun page => page.unpinned dirty
      pinned := Function.update c.pinned id none
      last := if dirty || (c.last id).isSome then
        Function.update c.last id (some ((c.buf.modifyPage s fun page => page.unpinned dirty).pages s).data)
      else c.last } := by
  obtain ⟨hlook, hpin⟩ := hc.pins id s w hp
  set b' := c.buf.modifyPage s fun page => page.unpinned dirty with hb'
  set last' := if dirty || (c.last id).isSome then
    Function.update c.last id (some (b'.pages s).data) else c.last with hlast'
  have hdata : (b'.pages s).data = (c.buf.pages s).data := by simp [hb', Page.unpinned]
  have hne : ∀ id', id' ≠ id → last' id' = c.last id' := fun id' e => by
    rw [hlast']
    split
    · rw [Function.update_of_ne e]
    · rfl
  -- the page has its new last data, and a clean unpin leaves it as it was backed
  have hself : ∀ d, last' id = some d →
      d = (c.buf.pages s).data ∧ (dirty = true ∨ Backed c.buf id d) := by
    intro d h
    rw [hlast'] at h
    split at h
    next hd =>
      obtain rfl : (b'.pages s).data = d := by simpa using h
      refine ⟨hdata, ?_⟩
      rcases Bool.eq_false_or_eq_true dirty with hdt | hdf
      · exact .inl hdt
      · obtain ⟨d₂, hd₂⟩ := Option.isSome_iff_exists.mp (by simpa [hdf] using hd)
        have hwf : w = false := by
          rcases Bool.eq_false_or_eq_true w with h' | h'
          · rw [hw h'] at hdf; simp at hdf
          · exact h'
        have hC := hc.cached id d₂ hd₂ (by simp [hp, hwf]) s hlook
        rw [hdata, hC]
        exact .inr (hc.backed id d₂ hd₂)
    next hd =>
      simp only [Bool.or_eq_true, not_or] at hd
      rw [h] at hd
      simp at hd
  refine ⟨hc.inv.unpinned (by omega) dirty, fun id' h => ?_, fun id' s' w' h => ?_, fun id' h => ?_,
    fun id' h => ?_, fun id' d h => ?_, fun id' d h hw => ?_⟩
  all_goals simp only at *
  · by_cases e : id' = id
    · subst e
      intro s' hs'
      obtain rfl := Option.some.inj (hlook.symm.trans hs')
      simp [hb', Page.unpinned, hpin]
    · rw [Function.update_of_ne e] at h
      exact (hc.others hp e).2.2.1 (hc.unpinned id' h)
  · have e : id' ≠ id := by rintro rfl; simp at h
    rw [Function.update_of_ne e] at h
    obtain ⟨h₁, h₂⟩ := hc.pins id' s' w' h
    exact ⟨h₁, by rw [hb', (hc.others hp e).2.2.2 s' h₁]; exact h₂⟩
  · have e : id' ≠ id := by rintro rfl; simp at h
    rw [Function.update_of_ne e] at h
    exact hc.pinned_used id' h
  · by_cases e : id' = id
    · subst e
      exact hc.pinned_used id' (by simp [hp])
    · rw [hne id' e] at h
      exact hc.last_used id' h
  · by_cases e : id' = id
    · subst e
      obtain ⟨rfl, hd⟩ := hself d h
      refine ⟨fun h' => ?_, fun s' hs' hclean => ?_⟩
      · rw [hb', modifyPage_pageTable, hlook] at h'
        simp at h'
      · obtain rfl := Option.some.inj (hlook.symm.trans hs')
        obtain ⟨hdf, hcl⟩ : dirty = false ∧ (c.buf.pages s).dirty = false := by
          simpa [hb', Page.unpinned] using hclean
        exact (hd.resolve_left (by simp [hdf])).2 s hlook hcl
    · rw [hne id' e] at h
      exact (hc.others hp e).1 d (hc.backed id' d h)
  · by_cases e : id' = id
    · subst e
      intro s' hs'
      obtain rfl := Option.some.inj (hlook.symm.trans hs')
      rw [hdata, (hself d h).1]
    · rw [hne id' e] at h
      refine (hc.others hp e).2.1 d (hc.cached id' d h fun s' hs' => hw s' ?_)
      rw [Function.update_of_ne e, hs']

theorem Ok.step_flush (hc : c.Ok R) (hF : Flushed c.buf b') : Ok R { c with buf := b' } := by
  have htable : b'.pageTable = c.buf.pageTable := by rw [hF.frame]
  have hpages : b'.pages = c.buf.pages := by rw [hF.frame]
  refine ⟨hF.inv hc.inv, fun id' h s' hs' => ?_, fun id' s' w' h => ?_, hc.pinned_used, hc.last_used,
    fun id' d h => hF.backed (hc.backed id' d h), fun id' d h hw s' hs' => ?_⟩
  all_goals simp only [htable, hpages] at *
  · exact hc.unpinned id' h s' hs'
  · exact hc.pins id' s' w' h
  · exact hc.cached id' d h hw s' hs'

/-- Every call keeps the invariant. -/
theorem Ok.step (hc : c.Ok R) (hs : Step R c c') : c'.Ok R := by
  cases hs with
  | createPage h =>
    obtain rfl := h.of_runs (Q := fun _ b' => b' = { c.buf with created := c.buf.created + 1 })
      (runs_call rfl (runs_ret rfl))
    exact ⟨hc.inv.createBlock, hc.unpinned, hc.pins, hc.pinned_used, hc.last_used, hc.backed,
      hc.cached⟩
  | pinPage hmay h => exact hc.step_pin hmay (hc.pinPost hmay h)
  | @write id s w d b' hp h =>
    obtain rfl := h.of_runs
      (Q := fun _ b' => b' = c.buf.modifyPage s fun page => { page with data := d })
      (runs_call rfl (runs_ret rfl))
    exact hc.step_write hp d
  | unpinPage hp hw h =>
    obtain rfl := h.of_runs (unpinPage_returns (R := R) (by rw [(hc.pins _ _ _ hp).2]))
    exact hc.step_unpin hp hw
  | flush h => exact hc.step_flush (h.of_runs (flush_returns hc.inv))

/-- The invariant holds after every sequence of calls. -/
theorem Ok.reach (hc : c.Ok R) (h : Reach R c c') : c'.Ok R := by
  induction h with
  | refl => exact hc
  | step _ hs ih => exact ih.step hs

/-- Caching is invisible: after any sequence of calls, a `pinPage` of an initialised page answers a
slot with that page, and with the data of its last `unpinPage`. -/
theorem pinPage_last (R : BufRules) (blocks : PageId → D) (zero : D)
    (hc : Reach R (init R blocks zero) c) (hmay : c.MayPin R id skipLoad)
    (h : Returns (handler R) (Buffer.pinPage id mode skipLoad) c.buf s b') (hlast : c.last id = some d) :
    (b'.pages s).id = id ∧ (b'.pages s).data = d := by
  have hok := (ok_init R blocks zero).reach hc
  have hP := hok.pinPost hmay h
  exact ⟨hP.inv.page_id id s hP.slot, (hok.holds_pin hmay hlast hP).2 s hP.slot⟩

/-- Page 0 is written, evicted by page 1 and read back. -/
theorem pinPage_last_evicted : ∃ (c : Client ℕ) (s : ℕ) (b' : PageBuffer ℕ),
    Returns (handler (.basic 1)) (Buffer.pinPage 0 (.fixed false) false) c.buf s b' ∧
      (b'.pages s).id = 0 ∧ (b'.pages s).data = 7 := by
  have h₀ : Reach (.basic 1) (init (.basic 1) (fun _ => 0) 0) (init (.basic 1) (fun _ => 0) 0) := .refl
  have h₂ := (h₀.step (.createPage ⟨2, rfl⟩)).step (.createPage ⟨2, rfl⟩)
  have h₃ := h₂.step (@Step.pinPage _ _ _ 0 (.fixed true) true _ _
    ⟨⟨0, by decide, rfl⟩, rfl, fun _ => rfl⟩ ⟨40, rfl⟩)
  have h₄ := h₃.step (@Step.write _ _ _ 0 _ _ 7 _ rfl ⟨2, rfl⟩)
  have h₅ := h₄.step (@Step.unpinPage _ _ _ 0 _ _ true _ rfl (fun _ => rfl) ⟨10, rfl⟩)
  have h₆ := h₅.step (@Step.pinPage _ _ _ 1 (.fixed true) true _ _
    ⟨⟨1, by decide, rfl⟩, rfl, fun _ => rfl⟩ ⟨40, rfl⟩)
  have h₇ := h₆.step (@Step.unpinPage _ _ _ 1 _ _ false _ rfl (fun h => by cases h) ⟨10, rfl⟩)
  obtain ⟨c, hc, hmay, hlast, s, b', hpin⟩ : ∃ c, Reach (.basic 1) (init (.basic 1) (fun _ => 0) 0) c ∧
      c.MayPin (.basic 1) 0 false ∧ c.last 0 = some 7 ∧ ∃ s b',
        Returns (handler (.basic 1)) (Buffer.pinPage 0 (.fixed false) false) c.buf s b' :=
    ⟨_, h₇, ⟨⟨0, by decide, rfl⟩, rfl, fun h => by cases h⟩, rfl, _, _, ⟨40, rfl⟩⟩
  exact ⟨c, s, b', hpin, pinPage_last (.basic 1) _ _ hc hmay hpin hlast⟩

end Client

end BEpsilon.Buffer
