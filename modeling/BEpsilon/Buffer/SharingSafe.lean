import BEpsilon.Buffer.Caching
import BEpsilon.Buffer.SharingPin

/-!
# BEpsilon.Buffer.SharingSafe — what the page buffer guarantees its threads

In every interleaving a page has one slot at a time, a page that a thread has pinned stays in its slot with its last
data, and nothing that was written is lost; no assert fails, and only a full buffer is an error.  When all threads are
between two operations the buffer is in a state that one thread could have left, so that `flush` saves what was
written last.
-/

namespace BEpsilon.Buffer

open PageBuffer Outlook

variable {D T : Type} [DecidableEq T] {R : BufRules} {f : Fields D} {g : Ghost D T} {t u : T} {v : Outlook}

omit [DecidableEq T] in
/-- A command that a thread may issue waits or finds the buffer full, or it returns. -/
theorem Sees.raises {b b' : PageBuffer D} (hv : Sees b.fields g t v) {β : Type} {c : BufCmd D β} (hc : Owed β c v)
    {e : BufErr} (h : handler R β c b = .raise e b') : e = .blocked ∨ e = .bufferFull := by
  cases c with
  | lockTable ex =>
    simp only [handler] at h
    split at h
    next => cases h
    next => exact .inl (Outcome.raise.inj h).1.symm
  | lockPage index ex =>
    simp only [handler] at h
    split at h
    next => cases h
    next => exact .inl (Outcome.raise.inj h).1.symm
  | takeFreeSlot id =>
    obtain ⟨ht, -, hnone, hfree, -⟩ := hc
    have htabs : v.tabs = b.fields.tables := hv.tabs (by rw [ht]; simp)
    rw [htabs] at hnone hfree
    have hslots : b.freeSlots ≠ ∅ := Finset.nonempty_iff_ne_empty.mp hfree
    have hpage : b.pageTable.lookup id = none := hnone
    simp [handler, hslots, hpage] at h
  | check c =>
    have hc : c = true := hc
    simp [handler, hc] at h
  | raise e' =>
    obtain rfl : e' = .bufferFull := hc
    exact .inr (Outcome.raise.inj h).1.symm
  | _ => cases h

namespace Sharing

/-- All threads are between two operations. -/
def Quiet (s : Pool (ClientOp D) (ShareCmd D) (Sharing D T) T Unit) : Prop := ∀ t, s.rest t = .ret ()

/-! ### Running threads -/

section Turns

variable {R : BufRules} {s₀ s : Pool (ClientOp D) (ShareCmd D) (Sharing D T) T Unit}

instance instDecidableAllowed [Fintype T] (g : Ghost D T) (t : T) (op : ClientOp D) (index : ℕ) :
    Decidable (g.Allowed t op index) :=
  match op with
  | .createPage => .isTrue trivial
  | .pinPage _ _ _ => inferInstanceAs (Decidable (_ ∧ _ ∧ (_ → _ ∧ _)))
  | .unpinPage _ _ => inferInstanceAs (Decidable (_ ∧ (_ → _)))
  | .read _ => inferInstanceAs (Decidable (_ = _))
  | .write _ _ => inferInstanceAs (Decidable (_ ∧ _))

/-- The slot in which thread `t` has the page of the operation pinned. -/
def slotOf (g : Ghost D T) (t : T) : ClientOp D → ℕ
  | .unpinPage id _ | .read id | .write id _ => (g.refs t id).getD 0
  | _ => 0

/-- Thread `t` goes on alone, `n` steps at most, until it has to wait or has returned. -/
def advance [Fintype T] (R : BufRules) (t : T) : ℕ → Prog (ShareCmd D) Unit → Sharing D T →
    Prog (ShareCmd D) Unit × Sharing D T
  | n + 1, .call (.inl c) k, w =>
    match handler R _ c w.buf with
    | .ok a b => advance R t n (k a) ⟨b, w.ghost.after t w.buf c a⟩
    | .raise _ _ => (.call (.inl c) k, w)
  | n + 1, .call (.inr (.enter op)) k, w =>
    if w.ghost.Allowed t op (slotOf w.ghost t op) then
      advance R t n (k (slotOf w.ghost t op)) ⟨w.buf, w.ghost.enter t op⟩
    else (.call (.inr (.enter op)) k, w)
  | n + 1, .call (.inr (.leave id index)) k, w => advance R t n (k ()) ⟨w.buf, w.ghost.leave t id index⟩
  | n + 1, .loop body s k, w => advance R t n (Prog.unroll body s k) w
  | _, p, w => (p, w)

theorem advance_comes [Fintype T] (R : BufRules) (t : T) (n : ℕ) (p : Prog (ShareCmd D) Unit) (w : Sharing D T) :
    ∃ m, Comes (step R t) m p w (advance R t n p w).1 (advance R t n p w).2 := by
  fun_induction advance R t n p w with
  | case1 n w β c k a b h ih =>
    obtain ⟨m, hm⟩ := ih
    exact ⟨m + 1, .call ⟨b, h, rfl⟩ hm⟩
  | case2 => exact ⟨0, .refl _ _⟩
  | case3 n w op k h ih =>
    obtain ⟨m, hm⟩ := ih
    exact ⟨m + 1, .call ⟨h, rfl⟩ hm⟩
  | case4 => exact ⟨0, .refl _ _⟩
  | case5 n w id index k ih =>
    obtain ⟨m, hm⟩ := ih
    exact ⟨m + 1, .call rfl hm⟩
  | case6 n w σ β body x k ih =>
    obtain ⟨m, hm⟩ := ih
    exact ⟨m + 1, .loop hm⟩
  | case7 => exact ⟨0, .refl _ _⟩

/-- Has the thread returned from its operation? -/
def idle (s : Pool (ClientOp D) (ShareCmd D) (Sharing D T) T Unit) (t : T) : Bool :=
  match s.rest t with
  | .ret _ => true
  | _ => false

omit [DecidableEq T] in
theorem idle_rest {t : T} (h : idle s t = true) : s.rest t = .ret () := by
  unfold idle at h
  split at h
  next u hu => exact hu
  next => cases h

/-- A turn of a thread: it begins an operation, if one is given and it has returned from the last one, and goes on
alone. -/
def turn [Fintype T] (R : BufRules) (s : Pool (ClientOp D) (ShareCmd D) (Sharing D T) T Unit) :
    T × Option (ClientOp D) → Pool (ClientOp D) (ShareCmd D) (Sharing D T) T Unit
  | (t, some op) => if idle s t then go (s.begin (rules R) t op) t else go s t
  | (t, none) => go s t
where
  go (s : Pool (ClientOp D) (ShareCmd D) (Sharing D T) T Unit) (t : T) :=
    { s with
      world := (advance R t 60 (s.rest t) s.world).2
      rest := Function.update s.rest t (advance R t 60 (s.rest t) s.world).1 }

theorem reachable_go [Fintype T] (hr : Pool.Reachable (rules R) s₀ s) (t : T) :
    Pool.Reachable (rules R) s₀ (turn.go R s t) := by
  obtain ⟨m, hm⟩ := advance_comes R t 60 (s.rest t) s.world
  exact hr.run hm

theorem reachable_turns [Fintype T] (hr : Pool.Reachable (rules R) s₀ s) (turns : List (T × Option (ClientOp D))) :
    Pool.Reachable (rules R) s₀ (turns.foldl (turn R) s) := by
  induction turns generalizing s with
  | nil => exact hr
  | cons x turns ih =>
    obtain ⟨t, op⟩ := x
    refine ih ?_
    cases op with
    | none => exact reachable_go hr t
    | some op =>
      rw [turn]
      split
      next h => exact reachable_go (hr.step (.next t op (idle_rest h))) t
      next => exact reachable_go hr t

end Turns

/-! ### Two threads on one slot -/

/-- One slot, and two threads that are to create the pages 0 and 1. -/
abbrev twoThreads : Pool (ClientOp ℕ) (ShareCmd ℕ) (Sharing ℕ Bool) Bool Unit :=
  started (.basic 1) (fun _ => 0) 0 0 (fun _ => false) fun _ => .createPage

/-- One thread writes to page 0 and then to page 1, for which page 0 is evicted; the other one waits for page 1. -/
def contending : List (Bool × Option (ClientOp ℕ)) :=
  [(true, none), (false, none), (true, some (.pinPage 0 (.fixed true) true)), (true, some (.write 0 7)),
    (true, some (.unpinPage 0 true)), (true, some (.pinPage 1 (.fixed true) true)), (true, some (.write 1 8)),
    (false, some (.pinPage 1 (.fixed false) false))]

/-- The page is unpinned, and the other thread reads it. -/
def unpinning : List (Bool × Option (ClientOp ℕ)) :=
  [(true, some (.unpinPage 1 true)), (false, none), (false, some (.read 1)), (false, some (.unpinPage 1 false))]

theorem reachable_contending : ∃ s, Pool.Reachable (rules (.basic 1)) twoThreads s ∧
    s.world.buf.pageTable.lookup 0 = none ∧ s.world.ghost.mem 0 = some 7 ∧ s.world.ghost.refs true 1 = some 0 ∧
    (s.world.buf.pages 0).pins = 2 := by
  have h : (let s := contending.foldl (turn (.basic 1)) twoThreads
      s.world.buf.pageTable.lookup 0 == none && s.world.ghost.mem 0 == some 7 &&
        s.world.ghost.refs true 1 == some 0 && (s.world.buf.pages 0).pins == 2) = true := by
    decide +kernel
  simp only [Bool.and_eq_true, beq_iff_eq] at h
  exact ⟨_, reachable_turns .start contending, h.1.1.1, h.1.1.2, h.1.2, h.2⟩

theorem reachable_unpinned : ∃ s, Pool.Reachable (rules (.basic 1)) twoThreads s ∧ Quiet s ∧
    (∀ t, s.world.ghost.wrote t = ∅) ∧ s.world.buf.pageTable.lookup 0 = none ∧ s.world.ghost.mem 0 = some 7 ∧
    s.world.ghost.mem 1 = some 8 := by
  have h : (let s := (contending ++ unpinning).foldl (turn (.basic 1)) twoThreads
      decide (∀ t, idle s t = true) && decide (∀ t, s.world.ghost.wrote t = ∅) &&
        s.world.buf.pageTable.lookup 0 == none && s.world.ghost.mem 0 == some 7 &&
          s.world.ghost.mem 1 == some 8) = true := by
    decide +kernel
  simp only [Bool.and_eq_true, beq_iff_eq, decide_eq_true_eq] at h
  obtain ⟨⟨⟨⟨hidle, hwrote⟩, hgone⟩, h₀⟩, h₁⟩ := h
  exact ⟨_, reachable_turns .start (contending ++ unpinning), fun t => idle_rest (hidle t), hwrote, hgone, h₀, h₁⟩

section Start

variable {blocks : PageId → D} {created : ℕ} {zero : D} {old : PageId → Bool} {op : T → ClientOp D}

theorem sound_started (R : BufRules) (blocks : PageId → D) (created : ℕ) (zero : D) (old : PageId → Bool)
    (op : T → ClientOp D) : Sound R (started R blocks created zero old op).world.buf.fields
      (started R blocks created zero old op).world.ghost where
  tables := inv_new R (fun _ => ()) 0 ()
  plain _ := rfl
  table_held := heldBy_none
  latch_held _ := heldBy_none
  pinned _ := counts_zero
  free _ _ := ⟨rfl, rfl⟩
  latch_pins _ _ h := absurd rfl h
  ref _ _ _ h := by cases h
  ref_loaded _ _ _ h := by cases h
  wrote _ s h := absurd h (Finset.notMem_empty s)
  saving _ _ h := by cases h
  loading _ _ h := by cases h
  absent id d h _ := by
    simp only [started] at h
    split at h
    · exact Option.some.inj h
    · cases h
  data _ _ _ _ h := by cases h
  saved _ _ _ _ h := by cases h
  unread _ _ _ _ h := by cases h
  fresh _ _ h := by cases h

theorem kept_started (R : BufRules) (blocks : PageId → D) (created : ℕ) (zero : D) (old : PageId → Bool)
    (op : T → ClientOp D) : Pool.Kept (fun w => Sound R w.buf.fields w.ghost)
      (fun t w v => Sees w.buf.fields w.ghost t v) (Outlook.step R) Outlook.Proper Outlook.Idle
      (started R blocks created zero old op) where
  inv := sound_started R blocks created zero old op
  thread t := by
    refine ⟨⟨(started R blocks created zero old op).world.ghost.own t, .new R (fun _ => ()) 0 (), fun _ => none, ∅, ∅⟩,
      ⟨rfl, fun h => absurd rfl h, ?_, ?_, ?_⟩, always_clientOp (op t) ⟨⟨rfl, ?_, ?_, ?_, ?_, ?_⟩, ⟨rfl, rfl, rfl⟩⟩⟩
    all_goals simp [started, Ghost.own]

variable {s : Pool (ClientOp D) (ShareCmd D) (Sharing D T) T Unit}

/-- In every pool that the threads come to, the buffer is sound and each thread keeps to what it owes. -/
theorem kept (hr : Pool.Reachable (rules R) (started R blocks created zero old op) s) :
    Pool.Kept (fun w => Sound R w.buf.fields w.ghost) (fun t w v => Sees w.buf.fields w.ghost t v)
      (Outlook.step R) Outlook.Proper Outlook.Idle s :=
  (kept_started R blocks created zero old op).reachable (views R Outlook.Idle) (fun op _ hv => always_clientOp op hv) hr

/-- What holds of the buffer at any moment. -/
structure Safe (R : BufRules) (w : Sharing D T) : Prop where
  one_slot : ∀ id id' i, w.buf.pageTable.lookup id = some i → w.buf.pageTable.lookup id' = some i → id = id'
  slot_id : ∀ id i, w.buf.pageTable.lookup id = some i → i < R.N ∧ (w.buf.pages i).id = id
  stays : ∀ t id i, w.ghost.refs t id = some i → w.buf.pageTable.lookup id = some i ∧ 0 < (w.buf.pages i).pins
  writer : ∀ t u id i, w.ghost.refs t id = some i → w.ghost.latch t i = some true → u ≠ t → w.ghost.refs u id = none
  last_write : ∀ t id i d, w.ghost.refs t id = some i → w.ghost.mem id = some d → (w.buf.pages i).data = d
  on_disk : ∀ id d, w.ghost.mem id = some d → w.buf.pageTable.lookup id = none → w.buf.blocks id = d

theorem Safe.of_sound {w : Sharing D T} (h : Sound R w.buf.fields w.ghost) : w.Safe R where
  one_slot := h.tables.inj
  slot_id id i hi := ⟨h.tables.slot_lt id i hi, h.tables.page_id id i hi⟩
  stays t id i hr := by
    obtain ⟨hi, hlatch⟩ := h.ref t id i hr
    exact ⟨hi, (h.latch_pins t i hlatch).trans_le ((h.pinned i).le t)⟩
  writer t u id i hr hlatch hu := by
    rw [Option.eq_none_iff_forall_ne_some]
    intro i' hr'
    obtain ⟨hi', hlatch'⟩ := h.ref u id i' hr'
    obtain rfl := Option.some.inj ((h.ref t id i hr).1.symm.trans hi')
    exact hlatch' (h.latch_alone hlatch hu)
  last_write t id i d hr hmem := by
    obtain ⟨hi, hlatch⟩ := h.ref t id i hr
    exact h.data id d i hmem hi (h.loaded hlatch (h.ref_loaded t id i hr))
  on_disk := h.absent

/-- In every interleaving of any number of threads: no two pages share a slot; a page that a thread has pinned stays
in its slot, one that it has latched exclusively is no other thread's, and the slot holds what was last written to
the page; what was written to a page that is not in memory is on the disk.  And no thread fails an assert or misses
a key of a queue: it waits for a mutex, or finds the buffer full, or its command returns. -/
theorem pages_safe (hr : Pool.Reachable (rules R) (started R blocks created zero old op) s) :
    s.world.Safe R ∧ ∀ t β (c : BufCmd D β) k e b, s.rest t = .call (.inl c) k →
      handler R β c s.world.buf = .raise e b → e = .blocked ∨ e = .bufferFull := by
  have hkept := kept hr
  refine ⟨.of_sound hkept.inv, fun t β c k e b hc he => ?_⟩
  obtain ⟨v, hv, hproper⟩ := hkept.guarantee hc
  exact hv.raises hproper he

/-- Page 1 has evicted page 0, and one thread waits for it while another one writes to it. -/
theorem pages_safe_written : ∃ s, Pool.Reachable (rules (.basic 1)) twoThreads s ∧
    s.world.ghost.refs true 1 = some 0 ∧ (s.world.buf.pages 0).pins = 2 ∧ s.world.buf.blocks 0 = 7 ∧
    s.world.Safe (.basic 1) ∧ ∀ t β (c : BufCmd ℕ β) k e b, s.rest t = .call (.inl c) k →
      handler (.basic 1) β c s.world.buf = .raise e b → e = .blocked ∨ e = .bufferFull := by
  obtain ⟨s, hr, hgone, hmem, href, hpins⟩ := reachable_contending
  obtain ⟨hsafe, hruns⟩ := pages_safe hr
  exact ⟨s, hr, href, hpins, hsafe.on_disk 0 7 hmem hgone, hsafe, hruns⟩

/-! ### Between the operations -/

/-- What a thread between two operations holds. -/
theorem idle_own (hr : Pool.Reachable (rules R) (started R blocks created zero old op) s) (hq : Quiet s) (t : T) :
    ∃ v : Outlook, v.Idle ∧ v.toOwn = s.world.ghost.own t := by
  obtain ⟨v, hv, hrun⟩ := (kept hr).thread t
  rw [hq t] at hrun
  exact ⟨v, (hrun 0 _ v (.refl _ _)).2 () rfl, hv.own⟩

/-- It has pinned the slots that it has latched, each of them once. -/
theorem idle_pins (hr : Pool.Reachable (rules R) (started R blocks created zero old op) s) (hq : Quiet s) (t : T)
    (i : ℕ) : s.world.ghost.pins t i = (if s.world.ghost.latch t i = none then 0 else 1) ∧
      (s.world.ghost.latch t i ≠ none ↔ ∃ id, s.world.ghost.refs t id = some i) := by
  obtain ⟨v, hidle, hown⟩ := idle_own hr hq t
  obtain ⟨own, tabs, page, sole, clean⟩ := v
  obtain rfl : own = s.world.ghost.own t := hown
  have hlatch : s.world.ghost.latch t i ≠ none ↔ ∃ id, s.world.ghost.refs t id = some i := by
    refine ⟨fun hl => (hidle.holds.latch i hl).resolve_left (by simp), ?_⟩
    rintro ⟨id, hid⟩
    exact (hidle.holds.ref id i hid).2.2.2
  refine ⟨?_, hlatch⟩
  split
  next hnone =>
    by_contra hne
    have hpin := (hidle.holds.pin i (Nat.pos_of_ne_zero hne)).resolve_left (by simp)
    exact hlatch.mpr hpin hnone
  next hl =>
    obtain ⟨id, hid⟩ := hlatch.mp hl
    exact (hidle.holds.ref id i hid).2.2.1

theorem quiet_inv (hr : Pool.Reachable (rules R) (started R blocks created zero old op) s) (hq : Quiet s) :
    Inv R s.world.buf := by
  have hinv := (kept hr).inv
  have htable : ∀ t, s.world.ghost.table t = none := by
    intro t
    obtain ⟨v, hidle, hown⟩ := idle_own hr hq t
    have h := hidle.rest.table
    rwa [hown] at h
  have htables := hinv.tables
  refine ⟨?_, htables.inj, htables.slot_lt, htables.free, htables.count, htables.page_id, htables.fifo_ok,
    htables.lru_ok, htables.queued, htables.apart, fun i hi => (hinv.free i hi).1, fun i => ?_⟩
  · have hfree : ∀ l : Latch, l.exclusive = false ∧ l.shared = 0 → l = {} := by
      rintro ⟨_, _⟩ ⟨rfl, rfl⟩
      rfl
    exact hfree _ (hinv.table_held.free htable)
  · exact (hinv.latch_held i).total (fun t => (idle_pins hr hq t i).1) (hinv.pinned i)

/-- The threads that have pinned the page in a slot, as many as its `pins` says. -/
theorem quiet_users (hr : Pool.Reachable (rules R) (started R blocks created zero old op) s) (hq : Quiet s) (i : ℕ) :
    ∃ users : List T, users.Nodup ∧ users.length = (s.world.buf.pages i).pins ∧
      ∀ t, t ∈ users ↔ ∃ id, s.world.ghost.refs t id = some i := by
  have hpins := fun t => idle_pins hr hq t i
  obtain ⟨users, hnodup, hlength, hmem⟩ := ((kept hr).inv.pinned i).holders fun t => by
    rw [(hpins t).1]
    split <;> omega
  refine ⟨users, hnodup, hlength, fun t => ?_⟩
  rw [hmem, ← (hpins t).2, (hpins t).1]
  split
  next h => simp [h]
  next h => simp [h]

/-- What was written last is in a dirty slot or on the disk. -/
theorem quiet_saved (hr : Pool.Reachable (rules R) (started R blocks created zero old op) s) (hq : Quiet s)
    (hwrote : ∀ t, s.world.ghost.wrote t = ∅) {id : PageId} {d : D} (hmem : s.world.ghost.mem id = some d) :
    (∃ i, s.world.buf.pageTable.lookup id = some i ∧ (s.world.buf.pages i).dirty = true ∧
      (s.world.buf.pages i).data = d) ∨
    (∀ i, s.world.buf.pageTable.lookup id = some i → (s.world.buf.pages i).dirty = false) ∧
      s.world.buf.blocks id = d := by
  have hinv := (kept hr).inv
  have hrest : ∀ t, s.world.ghost.loading t = none ∧ s.world.ghost.saving t = none := by
    intro t
    obtain ⟨v, hidle, hown⟩ := idle_own hr hq t
    have hload := hidle.rest.loading
    have hsave := hidle.rest.saving
    rw [hown] at hload hsave
    exact ⟨hload, hsave⟩
  cases hi : s.world.buf.pageTable.lookup id with
  | none => exact .inr ⟨by simp, hinv.absent id d hmem hi⟩
  | some i =>
    cases hd : (s.world.buf.pages i).dirty with
    | true =>
      refine .inl ⟨i, rfl, hd, hinv.data id d i hmem hi fun t => ?_⟩
      rw [(hrest t).1]
      simp
    | false =>
      refine .inr ⟨?_, ?_⟩
      · rintro i' ⟨⟩
        exact hd
      rcases hinv.saved id d i hmem hi with h | h | ⟨t, h⟩ | ⟨t, h⟩
      · have hdirty : (s.world.buf.pages i).dirty = true := h
        rw [hd] at hdirty
        cases hdirty
      · exact h
      · rw [(hrest t).2] at h
        cases h
      · rw [hwrote t] at h
        exact absurd h (Finset.notMem_empty i)

/-- Whenever all threads are between two operations, however they got there: the buffer is in a state that one thread
could have left, with the table unlocked, each page pinned by as many threads as its `pins` says, and its mutex held
as often; and unless a thread has still to unpin a page that it wrote to, `flush` puts the last write to every page
on the disk. -/
theorem quiet_flush (hr : Pool.Reachable (rules R) (started R blocks created zero old op) s) (hq : Quiet s) :
    Inv R s.world.buf ∧
    (∀ i, ∃ users : List T, users.Nodup ∧ users.length = (s.world.buf.pages i).pins ∧
      ∀ t, t ∈ users ↔ ∃ id, s.world.ghost.refs t id = some i) ∧
    ((∀ t, s.world.ghost.wrote t = ∅) → Runs (handler R) (flush R) s.world.buf fun _ b' =>
      ∀ id d, s.world.ghost.mem id = some d → b'.blocks id = d) := by
  have hinv := quiet_inv hr hq
  refine ⟨hinv, quiet_users hr hq, fun hwrote => (flush_returns hinv).mono ?_⟩
  intro _ b' hflushed id d hmem
  rcases quiet_saved hr hq hwrote hmem with ⟨i, hi, hdirty, rfl⟩ | ⟨hclean, hblock⟩
  · exact hflushed.saved id i hi hdirty
  · exact (hflushed.others id hclean).trans hblock

/-- What the thread wrote to the two pages is on the disk. -/
theorem quiet_flush_written : ∃ s, Pool.Reachable (rules (.basic 1)) twoThreads s ∧ Quiet s ∧
    s.world.buf.pageTable.lookup 0 = none ∧ Inv (.basic 1) s.world.buf ∧
    Runs (handler (.basic 1)) (flush (.basic 1)) s.world.buf fun _ b' => b'.blocks 0 = 7 ∧ b'.blocks 1 = 8 := by
  obtain ⟨s, hr, hq, hwrote, hgone, h₀, h₁⟩ := reachable_unpinned
  obtain ⟨hinv, -, hflush⟩ := quiet_flush hr hq
  exact ⟨s, hr, hq, hgone, hinv, (hflush hwrote).mono fun _ _ h => ⟨h 0 7 h₀, h 1 8 h₁⟩⟩

end Start

end Sharing

end BEpsilon.Buffer
