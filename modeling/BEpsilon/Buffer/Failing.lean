import BEpsilon.Lib.Always
import BEpsilon.Buffer.Outcomes

/-!
# BEpsilon.Buffer.Failing — a `pinPage` that raises

`pinPage` raises when no page can be evicted, when the segment manager cannot write the victim and when it
cannot read the page.  The guard of a page mutex unlocks it on the way out; the table is locked by hand, the
pin is taken by hand and the table and the queues are changed before the page is read, so that something of
the call is always left behind.
-/

namespace BEpsilon.Buffer

open PageBuffer

variable {D : Type} {R : BufRules} {b b' v : PageBuffer D} {id : PageId} {mode : LatchMode D} {skipLoad : Bool}
  {index : ℕ} {t : Latch}

/-- `Fails c b b'`: the command `c` of `pinPage` raises in `b` and leaves `b'`, with the guard of the page
mutex given up and in the block or the page whatever was written before the failure. -/
def Fails {β : Type} (c : BufCmd D β) (b b' : PageBuffer D) : Prop :=
  match c with
  | .raise e => e = .bufferFull ∧ b' = b
  | .savePage index => ∃ d, b' =
    { b with blocks := Function.update b.blocks (b.pages index).id d }.modifyPage index fun page =>
      { page with mutex := page.mutex.unlock }
  | .loadPage _ index => ∃ d, b' = b.modifyPage index fun page =>
      { page with data := d, mutex := page.mutex.unlock }
  | _ => False

/-- The run of `pinPage` from `b` raises and leaves `b'`. -/
def PinRaises (R : BufRules) (id : PageId) (mode : LatchMode D) (skipLoad : Bool) (b b' : PageBuffer D) : Prop :=
  ∃ n β, ∃ c : BufCmd D β, ∃ k v, Comes (handler R).steps n (pinPage id mode skipLoad) b (.call c k) v ∧ Fails c v b'

/-- A `pinPage` that finds no page to evict. -/
theorem pinRaises_full {P : PageBuffer D → Prop}
    (h : Raises (handler R) (pinPage id mode skipLoad) b .bufferFull P) :
    ∃ b', PinRaises R id mode skipLoad b b' ∧ P b' := by
  obtain ⟨n, β, c, k, v, v', hr, hraise, hP⟩ := h.comes
  refine ⟨v', ⟨n, β, c, k, v, hr, ?_⟩, hP⟩
  cases c with
  | raise e =>
    obtain ⟨rfl, rfl⟩ := by simpa [handler] using hraise
    exact ⟨rfl, rfl⟩
  | lockTable e =>
    simp only [handler] at hraise
    split at hraise <;> cases hraise
  | lockPage index e =>
    simp only [handler] at hraise
    split at hraise <;> cases hraise
  | takeFreeSlot id =>
    simp only [handler] at hraise
    split at hraise <;> cases hraise
  | check c =>
    simp only [handler] at hraise
    split at hraise <;> cases hraise
  | _ => cases hraise

/-- What a failed `pinPage` leaves behind: a table that is still locked, a dirty page that was written, or
not, and is clean now, or a page that is in the table and was not read. -/
inductive LeftBehind (id : PageId) (b b' : PageBuffer D) : Prop
  | locked (h : b'.tableMutex ≠ b.tableMutex)
  | cleaned (index : ℕ) (h : (b.pages index).dirty = true) (h' : (b'.pages index).dirty = false)
  | entered (h : b.pageTable.lookup id = none) (h' : b'.pageTable.lookup id ≠ none)

theorem LeftBehind.ne (h : LeftBehind id b b') : b' ≠ b := by
  rintro rfl
  cases h with
  | locked h => exact h rfl
  | cleaned index h h' =>
    rw [h] at h'
    cases h'
  | entered h h' => exact h' h

/-! ### The state of the buffer during the call -/

/-- Up to the point where the page gets its slot: the table is as it was before the call and no page has
become dirty, while the table mutex is `t`. -/
structure Since (b v : PageBuffer D) (t : Latch) : Prop where
  tableMutex : v.tableMutex = t
  pageTable : v.pageTable = b.pageTable
  dirty : ∀ i, (v.pages i).dirty = true → (b.pages i).dirty = true

/-- The table is locked by this call. -/
structure LockedOver (l t : Latch) : Prop where
  unlock : t.unlock = l
  ne : t ≠ l

theorem lockedOver_lock {l : Latch} {e : Bool} (h : l.lock e = some t) : LockedOver l t := by
  obtain ⟨x, m⟩ := l
  unfold Latch.lock at h
  cases x with
  | true => simp at h
  | false =>
    cases e with
    | true =>
      obtain ⟨rfl, h⟩ : m = 0 ∧ ⟨true, m⟩ = t := by simpa using h
      subst h
      exact ⟨rfl, by simp⟩
    | false =>
      obtain rfl : (⟨false, m + 1⟩ : Latch) = t := by simpa using h
      exact ⟨rfl, by simp⟩

theorem Since.modifyPage {f : Page D → Page D} (hv : Since b v t)
    (hf : (f (v.pages index)).dirty = true → (v.pages index).dirty = true) : Since b (v.modifyPage index f) t := by
  refine ⟨hv.tableMutex, hv.pageTable, ?_⟩
  intro i hi
  by_cases e : i = index
  · subst e
    rw [modifyPage_pages_self] at hi
    exact hv.dirty i (hf hi)
  · rw [modifyPage_pages_ne e] at hi
    exact hv.dirty i hi

theorem Since.withTable {l : Latch} (hv : Since b v t) : Since b (v.withTable l) l :=
  ⟨rfl, hv.pageTable, hv.dirty⟩

theorem Since.save (hv : Since b v t) : Since b (v.save index) t :=
  ⟨hv.tableMutex, hv.pageTable, hv.dirty⟩

/-- What a command that fails leaves. -/
abbrev Leaves (id : PageId) (b : PageBuffer D) : (β : Type) → BufCmd D β → PageBuffer D → Prop :=
  fun _ c v => ∀ b', Fails c v b' → LeftBehind id b b'

section Rules

variable {α β : Type} {Q : α → PageBuffer D → Prop} {f : Unit → BufProg D α}

theorem always_lockTable {e : Bool}
    (h : ∀ t, v.tableMutex.lock e = some t → Always (handler R).steps (Leaves id b) (f ()) (v.withTable t) Q) :
    Always (handler R).steps (Leaves id b) ((Prog.cmd (.lockTable e)).bind f) v Q := by
  refine always_call (fun b' hf => hf.elim) ?_
  intro x v' hs
  simp only [Handler.steps, handler] at hs
  split at hs
  next t ht =>
    obtain ⟨-, rfl⟩ := by simpa using hs
    exact h t ht
  next => cases hs

theorem always_unlockTable {e : Bool}
    (h : Always (handler R).steps (Leaves id b) (f ()) (v.withTable v.tableMutex.unlock) Q) :
    Always (handler R).steps (Leaves id b) ((Prog.cmd (.unlockTable e)).bind f) v Q := by
  refine always_call (fun b' hf => hf.elim) ?_
  intro x v' hs
  obtain ⟨-, rfl⟩ := by simpa [Handler.steps, handler] using hs
  exact h

theorem always_lockPage {e : Bool}
    (h : ∀ l, Always (handler R).steps (Leaves id b) (f ())
      (v.modifyPage index fun page => { page with mutex := l }) Q) :
    Always (handler R).steps (Leaves id b) ((Prog.cmd (.lockPage index e)).bind f) v Q := by
  refine always_call (fun b' hf => hf.elim) ?_
  intro x v' hs
  simp only [Handler.steps, handler] at hs
  split at hs
  next l hl =>
    obtain ⟨-, rfl⟩ := by simpa using hs
    exact h l
  next => cases hs

theorem always_check {c : Bool} (h : Always (handler R).steps (Leaves id b) (f ()) v Q) :
    Always (handler R).steps (Leaves id b) ((Prog.cmd (.check c)).bind f) v Q := by
  refine always_call (fun b' hf => hf.elim) ?_
  intro x v' hs
  simp only [Handler.steps, handler] at hs
  split at hs
  next => cases hs
  next =>
    obtain ⟨-, rfl⟩ := by simpa using hs
    exact h

/-- A command that neither waits nor fails. -/
theorem always_does {c : BufCmd D β} {x : β} {v' : PageBuffer D} {f : β → BufProg D α}
    (hc : handler R β c v = .ok x v') (hf : ∀ b', ¬ Fails c v b')
    (h : Always (handler R).steps (Leaves id b) (f x) v' Q) :
    Always (handler R).steps (Leaves id b) ((Prog.cmd c).bind f) v Q := by
  refine always_call (fun b' h' => absurd h' (hf b')) ?_
  intro x' v'' hs
  obtain ⟨rfl, rfl⟩ := by simpa [Handler.steps, hc] using hs
  exact h

end Rules

/-! ### The paths -/

section Paths

variable {Q : Bool ⊕ ℕ → PageBuffer D → Prop}

/-- Latching the page is the last step of a call that returns. -/
theorem always_latchPage {s : ℕ} (hQ : ∀ v', Q (.inr s) v') :
    Always (handler R).steps (Leaves id b) ((latchPage index mode).bind fun _ => .ret (.inr s)) v Q := by
  cases mode with
  | fixed e => exact always_lockPage fun l => always_ret (hQ _)
  | modeFunction g =>
    simp only [latchPage, Prog.bind_def, Prog.bind_assoc]
    exact always_does rfl (fun _ h => h) (always_lockPage fun l => always_ret (hQ _))

/-- The page has its slot, and can only be left in it unread. -/
theorem always_loadAndLatch {s : ℕ} (hid : b.pageTable.lookup id = none)
    (hv : v.pageTable.lookup id ≠ none) (hQ : ∀ v', Q (.inr s) v') :
    Always (handler R).steps (Leaves id b) ((loadAndLatch id mode skipLoad index).bind fun _ => .ret (.inr s)) v Q := by
  simp only [loadAndLatch, Prog.bind_def]
  cases skipLoad with
  | true =>
    simp only [if_true, Prog.bind_assoc]
    exact always_unlockTable (always_latchPage hQ)
  | false =>
    simp only [Bool.false_eq_true, if_false, Prog.bind_assoc]
    refine always_lockPage fun l => always_unlockTable ?_
    refine always_call ?_ ?_
    · rintro b' ⟨d, rfl⟩
      exact .entered hid hv
    · intro x v' hs
      exact always_does rfl (fun _ h => h) (always_latchPage hQ)

/-- How a round ends that does not return: as it has begun. -/
abbrev Again (b : PageBuffer D) : Bool ⊕ ℕ → PageBuffer D → Prop :=
  fun r v => ∀ e, r = .inl e → Since b v b.tableMutex

theorem again_inr {s : ℕ} : Again b (.inr s) v := by
  intro e h
  cases h

theorem always_again {e e' : Bool} (hv : Since b v t) (ht : LockedOver b.tableMutex t) :
    Always (handler R).steps (Leaves id b) ((Prog.cmd (.unlockTable e)).bind fun _ => .ret (.inl e')) v (Again b) := by
  refine always_unlockTable (always_ret ?_)
  intro _ _
  rw [hv.tableMutex, ht.unlock]
  exact hv.withTable

theorem always_pinHit {e : Bool} (hv : Since b v t) (ht : LockedOver b.tableMutex t) :
    Always (handler R).steps (Leaves id b) (pinHit id mode e index) v (Again b) := by
  simp only [pinHit, Prog.bind_def, Prog.pure_def]
  refine always_does rfl (fun _ h => h) (always_check ?_)
  split
  · refine always_does rfl (fun _ h => h) (always_again ?_ ht)
    rw [modifyPage_modifyPage]
    exact hv.modifyPage fun h => h
  split
  · exact always_does rfl (fun _ h => h) (always_unlockTable (always_latchPage fun _ => again_inr))
  · exact always_unlockTable (always_latchPage fun _ => again_inr)

theorem always_pinFree {e : Bool} (hv : Since b v t) (ht : LockedOver b.tableMutex t)
    (hid : b.pageTable.lookup id = none) :
    Always (handler R).steps (Leaves id b) (pinFree id mode skipLoad e) v (Again b) := by
  simp only [pinFree, Prog.bind_def, Prog.pure_def]
  split
  · exact always_again hv ht
  refine always_call (fun _ h => False.elim h) ?_
  intro s v' hs
  have hslot : v'.pageTable.lookup id ≠ none := by
    simp only [Handler.steps, handler] at hs
    split at hs
    next => cases hs
    next =>
      obtain ⟨-, rfl⟩ := by simpa using hs
      simp [takeFreeSlot]
  refine always_does rfl (fun _ h => h) (always_check ?_)
  refine always_does rfl (fun _ h => h) (always_does rfl (fun _ h => h) ?_)
  exact always_loadAndLatch hid hslot fun _ => again_inr

/-- The search for a victim changes nothing. -/
theorem always_findUnpinned {w : Victims} {f : Option PageId → BufProg D (Bool ⊕ ℕ)}
    (h : ∀ r, Always (handler R).steps (Leaves id b) (f r) v Q) :
    Always (handler R).steps (Leaves id b) ((findUnpinned w).bind f) v Q := by
  have hscan : ∀ (es : List (QueueNode PageId ℕ)) (g : Option (QueueNode PageId ℕ) → BufProg D (Bool ⊕ ℕ)),
      (∀ r, Always (handler R).steps (Leaves id b) (g r) v Q) →
      Always (handler R).steps (Leaves id b) (Prog.bind (es.findM? fun e =>
        (Prog.cmd (.getPins e.value)).bind fun pins => Prog.ret (decide (pins = 0))) g) v Q := by
    intro es
    induction es with
    | nil => exact fun g hg => hg none
    | cons e es ih =>
      intro g hg
      rw [List.findM?, Prog.bind_def, Prog.bind_assoc, Prog.bind_assoc]
      refine always_does rfl (fun _ h => h) ?_
      rw [Prog.ret_bind]
      split
      · exact hg _
      · exact ih g hg
  simp only [findUnpinned, Queue.findOne, Prog.bind_def, Prog.pure_def, Prog.bind_assoc]
  refine always_does rfl (fun _ h => h) (hscan _ _ fun r => ?_)
  rw [Prog.ret_bind]
  exact h _

/-- A victim that cannot be written has been marked clean. -/
theorem always_writeBack {e : Bool} {f : Unit → BufProg D (Bool ⊕ ℕ)} (hv : Since b v t)
    (ht : LockedOver b.tableMutex t)
    (h : ∀ v' t', Since b v' t' → LockedOver b.tableMutex t' →
      Always (handler R).steps (Leaves id b) (f ()) v' Q) :
    Always (handler R).steps (Leaves id b) ((writeBack e index).bind f) v Q := by
  have hrelock : ∀ v', Since b v' t →
      Always (handler R).steps (Leaves id b) ((Prog.cmd (.lockTable true)).bind f)
        (v'.withTable v'.tableMutex.unlock) Q := by
    intro v' hv'
    refine always_lockTable fun t' ht' => ?_
    have hlock : b.tableMutex.lock true = some t' := by
      rw [← ht.unlock, ← hv'.tableMutex]
      exact ht'
    exact h _ t' hv'.withTable (lockedOver_lock hlock)
  simp only [writeBack, Prog.bind_def, Prog.bind_assoc]
  refine always_does rfl (fun _ h => h) ?_
  split
  next hd =>
    simp only [Prog.bind_assoc]
    refine always_does rfl (fun _ h => h) (always_lockPage fun l => always_unlockTable ?_)
    rw [modifyPage_modifyPage]
    refine always_call ?_ ?_
    · rintro b' ⟨d, rfl⟩
      refine .cleaned index (hv.dirty index hd) ?_
      simp
    · intro x v' hs
      obtain ⟨-, rfl⟩ := by simpa [Handler.steps, handler] using hs
      refine always_does rfl (fun _ h => h) ?_
      have hclean : Since b ((v.modifyPage index ((fun page => { page with mutex := l }) ∘
          fun page => { page with dirty := false })).save index) t :=
        (hv.modifyPage fun h => by simp at h).save
      exact hrelock _ (hclean.modifyPage (f := fun page => { page with mutex := page.mutex.unlock }) fun h => h)
  next hd =>
    split
    · simp only [Prog.bind_assoc]
      exact always_unlockTable (hrelock v hv)
    · exact h v t hv ht

/-- Only a page that is still absent gets the slot. -/
theorem always_stillEvictable {w : Victims} {key : PageId} {f : Bool → BufProg D (Bool ⊕ ℕ)}
    (htrue : v.pageTable.lookup id = none → Always (handler R).steps (Leaves id b) (f true) v Q)
    (hfalse : Always (handler R).steps (Leaves id b) (f false) v Q) :
    Always (handler R).steps (Leaves id b) ((stillEvictable w key id index).bind f) v Q := by
  simp only [stillEvictable, Prog.bind_def, Prog.pure_def, Prog.bind_assoc]
  refine always_does rfl (fun _ h => h) ?_
  split
  · exact hfalse
  next hid =>
    have hid : v.pageTable.lookup id = none := by simpa using hid
    simp only [Prog.bind_assoc]
    refine always_does rfl (fun _ h => h) ?_
    split
    · exact hfalse
    simp only [Prog.bind_assoc]
    refine always_does rfl (fun _ h => h) ?_
    split
    · exact hfalse
    simp only [Prog.bind_assoc]
    refine always_does rfl (fun _ h => h) ?_
    rw [Prog.ret_bind]
    cases !(v.pages index).dirty with
    | true => exact htrue hid
    | false => exact hfalse

theorem always_pinEvict {w : Victims} {key : PageId} {e : Bool} (hv : Since b v t) (ht : LockedOver b.tableMutex t) :
    Always (handler R).steps (Leaves id b) (pinEvict id mode skipLoad e w key) v (Again b) := by
  simp only [pinEvict, Prog.bind_def, Prog.pure_def]
  refine always_does rfl (fun _ h => h) ?_
  split
  · exact always_call (fun b' h => by cases h.1) fun x => x.elim
  refine always_does rfl (fun _ h => h) ?_
  refine always_writeBack (hv.modifyPage fun h => h) ht fun v' t' hv' ht' => always_stillEvictable ?_ ?_
  · intro hid
    rw [if_pos rfl]
    refine always_does rfl (fun _ h => h) (always_does rfl (fun _ h => h) ?_)
    refine always_loadAndLatch (hv'.pageTable ▸ hid) ?_ fun _ => again_inr
    cases w <;> simp [replace, setQueue]
  · rw [if_neg (by simp)]
    exact always_does rfl (fun _ h => h) (always_again (hv'.modifyPage fun h => h) ht')

/-- A round of `pinPage`. -/
theorem always_pinAttempt {e : Bool} (hv : Since b v b.tableMutex) :
    Always (handler R).steps (Leaves id b) (pinAttempt id mode skipLoad e) v (Again b) := by
  simp only [pinAttempt, Prog.bind_def]
  refine always_lockTable fun t ht => ?_
  rw [hv.tableMutex] at ht
  have ht := lockedOver_lock ht
  have hv : Since b (v.withTable t) t := hv.withTable
  refine always_does rfl (fun _ h => h) ?_
  cases hid : (v.withTable t).pageTable.lookup id with
  | some index => exact always_pinHit hv ht
  | none =>
    refine always_does rfl (fun _ h => h) ?_
    split
    · exact always_pinFree hv ht (hv.pageTable ▸ hid)
    refine always_findUnpinned fun r => ?_
    cases r with
    | some key => exact always_pinEvict hv ht
    | none =>
      refine always_findUnpinned fun r => ?_
      cases r with
      | some key => exact always_pinEvict hv ht
      | none =>
        refine always_call ?_ fun x => x.elim
        rintro b' ⟨-, rfl⟩
        refine .locked ?_
        rw [hv.tableMutex]
        exact ht.ne

end Paths

/-- Every `pinPage` that raises leaves something behind: where a page could not be evicted the table is
still locked, where a dirty page could not be written it is clean now, and where the page could not be read
it is in the table all the same.  In no state of the buffer does it leave everything as it was. -/
theorem pinPage_leavesBehind (R : BufRules) (b b' : PageBuffer D) (id : PageId) (mode : LatchMode D)
    (skipLoad : Bool) (h : PinRaises R id mode skipLoad b b') : LeftBehind id b b' ∧ b' ≠ b := by
  have hall : Always (handler R).steps (Leaves id b) (pinPage id mode skipLoad) b fun _ _ => True := by
    refine always_loop (fun _ v => Since b v b.tableMutex) ?_ ⟨rfl, rfl, fun _ h => h⟩
    intro e v hv
    refine (always_pinAttempt hv).mono ?_
    rintro (e' | s) v' h
    · exact h e' rfl
    · exact always_ret trivial
  obtain ⟨n, β, c, k, v, hr, hf⟩ := h
  have hleft := (hall n _ v hr).1 β c k rfl b' hf
  exact ⟨hleft, hleft.ne⟩

/-- One slot, which page 0 has. -/
theorem pinPage_leavesBehind_oneSlot : ∃ b b' : PageBuffer ℕ,
    PinRaises (.basic 1) 1 (.fixed true) false b b' ∧ LeftBehind 1 b b' ∧ b' ≠ b := by
  obtain ⟨b, hfull⟩ : ∃ b : PageBuffer ℕ,
      Raises (handler (.basic 1)) (pinPage 1 (.fixed true) false) b .bufferFull fun _ => True := by
    obtain ⟨b, hpin, hfull⟩ : ∃ b : PageBuffer ℕ, Returns (handler (.basic 1)) (pinPage 0 (.fixed true) true)
        (new (.basic 1) (fun _ => 0) 2 0) 0 b ∧
        Raises (handler (.basic 1)) (pinPage 1 (.fixed true) false) b .bufferFull fun _ => True :=
      ⟨_, ⟨40, rfl⟩, 40, _, rfl, trivial⟩
    exact ⟨b, hfull⟩
  obtain ⟨b', hraises, -⟩ := pinRaises_full hfull
  exact ⟨b, b', hraises, pinPage_leavesBehind (.basic 1) b b' 1 (.fixed true) false hraises⟩

/-- One slot: page 1 cannot be pinned while page 0 is, and after page 0 has been unpinned it waits forever. -/
theorem pinPage_locksOut : ∃ b b' b'' : PageBuffer ℕ,
    Returns (handler (.basic 1)) (pinPage 0 (.fixed true) true) (new (.basic 1) (fun _ => 0) 2 0) 0 b ∧
      PinRaises (.basic 1) 1 (.fixed true) false b b' ∧ b' ≠ b ∧
      Returns (handler (.basic 1)) (unpinPage 0 false) b' () b'' ∧
      Raises (handler (.basic 1)) (pinPage 1 (.fixed true) false) b'' .blocked fun _ => True := by
  obtain ⟨b, b', b'', hpin, hfull, hbefore, hafter, hunpin, hblocked⟩ : ∃ b b' b'' : PageBuffer ℕ,
      Returns (handler (.basic 1)) (pinPage 0 (.fixed true) true) (new (.basic 1) (fun _ => 0) 2 0) 0 b ∧
      Raises (handler (.basic 1)) (pinPage 1 (.fixed true) false) b .bufferFull (fun v => v = b') ∧
      b.tableMutex = {} ∧ b'.tableMutex = ⟨false, 1⟩ ∧
      Returns (handler (.basic 1)) (unpinPage 0 false) b' () b'' ∧
      Raises (handler (.basic 1)) (pinPage 1 (.fixed true) false) b'' .blocked fun _ => True :=
    ⟨_, _, _, ⟨40, rfl⟩, ⟨40, _, rfl, rfl⟩, rfl, rfl, ⟨10, rfl⟩, ⟨40, _, rfl, trivial⟩⟩
  obtain ⟨v, hraises, rfl⟩ := pinRaises_full hfull
  refine ⟨b, v, b'', hpin, hraises, ?_, hunpin, hblocked⟩
  intro heq
  rw [heq, hbefore] at hafter
  cases hafter

end BEpsilon.Buffer
