import BEpsilon.Lib.Refine
import BEpsilon.Buffer.Rounds

/-!
# BEpsilon.Buffer.Known — which blocks the page buffer reads and writes

The segment manager serves the ids that it has handed out and no others.  `Loaded X` says that the pages in memory
have ids of `X`; each command of the buffer that is `Within X` keeps this, and `pinPage` of a page of `X`,
`unpinPage` and `flush` issue no other commands.  So the commands of a run that creates `n` pages at most are
`StoreKnown n`.
-/

namespace BEpsilon.Buffer

open PageBuffer

variable {D H α β : Type} {X : Set PageId} {B : BufRules} {b b' : PageBuffer D}

/-- The pages in memory have ids of `X`, all of which were handed out. -/
structure Loaded (B : BufRules) (X : Set PageId) (b : PageBuffer D) : Prop where
  known : ∀ id ∈ X, ∃ i < b.created, B.ids i = id
  table : ∀ id s, b.pageTable.lookup id = some s → (b.pages s).id ∈ X
  queues : ∀ v, ∀ e ∈ (b.queue v).entryQueue, (b.pages e.value).id ∈ X
  used : ∀ s < B.N, s ∉ b.freeSlots → (b.pages s).id ∈ X

/-- A command that brings pages of `X` into memory only, and reads and writes no blocks but theirs; none is created. -/
def BufCmd.Within (X : Set PageId) (b : PageBuffer D) : BufCmd D β → Prop
  | .takeFreeSlot id => id ∈ X
  | .replace _ _ id _ => id ∈ X
  | .reposition _ index => (b.pages index).id ∈ X
  | .savePage index => (b.pages index).id ∈ X
  | .loadPage id _ => id ∈ X
  | .createBlock => False
  | _ => True

theorem Loaded.mono {X' : Set PageId} (hL : Loaded B X b) (h : X ⊆ X')
    (hX : ∀ id ∈ X', ∃ i < b.created, B.ids i = id) : Loaded B X' b :=
  ⟨hX, fun id s hs => h (hL.table id s hs), fun v e he => h (hL.queues v e he), fun s hs hf => h (hL.used s hs hf)⟩

/-- Nothing changes but the data, the latches, the pins and the flags of the pages. -/
theorem Loaded.congr (hL : Loaded B X b) (hcreated : b.created ≤ b'.created)
    (htable : b'.pageTable = b.pageTable) (hqueue : ∀ v, b'.queue v = b.queue v)
    (hfree : b'.freeSlots = b.freeSlots) (hid : ∀ s, (b'.pages s).id = (b.pages s).id) : Loaded B X b' where
  known id hid := by
    obtain ⟨i, hi, e⟩ := hL.known id hid
    exact ⟨i, lt_of_lt_of_le hi hcreated, e⟩
  table id s hs := by
    rw [hid]
    exact hL.table id s (htable ▸ hs)
  queues v e he := by
    rw [hid]
    exact hL.queues v e (hqueue v ▸ he)
  used s hs hf := by
    rw [hid]
    exact hL.used s hs (hfree ▸ hf)

theorem modifyPage_id {index : ℕ} {f : Page D → Page D} (hf : ∀ page, (f page).id = page.id) (s : ℕ) :
    ((b.modifyPage index f).pages s).id = (b.pages s).id := by
  by_cases e : s = index
  · rw [e, modifyPage_pages_self, hf]
  · rw [modifyPage_pages_ne e]

theorem Loaded.modifyPage (hL : Loaded B X b) {index : ℕ} {f : Page D → Page D}
    (hf : ∀ page, (f page).id = page.id) : Loaded B X (b.modifyPage index f) :=
  hL.congr le_rfl rfl (by intro v; cases v <;> rfl) rfl (modifyPage_id hf)

theorem mem_remove {q : Queue PageId ℕ} {key : PageId} {e : QueueNode PageId ℕ}
    (he : e ∈ (q.remove key).entryQueue) : e ∈ q.entryQueue := by
  unfold Queue.remove at he
  split at he
  · exact he
  · exact List.mem_of_mem_eraseP he

theorem mem_toFront {q : Queue PageId ℕ} {key : PageId} {e : QueueNode PageId ℕ}
    (he : e ∈ (q.toFront key).entryQueue) : e ∈ q.entryQueue := by
  unfold Queue.toFront at he
  split at he
  · exact he
  next e₀ h₀ =>
    rcases List.mem_cons.mp he with rfl | he
    · obtain ⟨it, -, hfind⟩ := Option.bind_eq_some_iff.mp h₀
      exact List.mem_of_find?_eq_some hfind
    · exact List.mem_of_mem_eraseP he

theorem mem_of_find {q : Queue PageId ℕ} {key : PageId} {s : ℕ} (h : q.find key = some s) :
    ∃ e ∈ q.entryQueue, e.value = s := by
  obtain ⟨e, he, rfl⟩ := Option.map_eq_some_iff.mp h
  obtain ⟨it, -, hfind⟩ := Option.bind_eq_some_iff.mp he
  exact ⟨e, List.mem_of_find?_eq_some hfind, rfl⟩

theorem Loaded.reposition (hL : Loaded B X b) {id : PageId} {index : ℕ} (hid : (b.pages index).id ∈ X) :
    Loaded B X (b.reposition id index) := by
  have hq : ∀ v, ∀ e ∈ ((b.reposition id index).queue v).entryQueue,
      e.value = index ∨ ∃ v', e ∈ (b.queue v').entryQueue := by
    intro v e he
    unfold PageBuffer.reposition repositioned at he
    cases v with
    | fifo =>
      simp only [queue] at he
      split at he
      · exact .inr ⟨.fifo, mem_remove he⟩
      · split at he
        · exact .inr ⟨.fifo, he⟩
        · rcases List.mem_cons.mp he with rfl | he
          · exact .inl rfl
          · exact .inr ⟨.fifo, he⟩
    | lru =>
      simp only [queue] at he
      split at he
      · rcases List.mem_cons.mp he with rfl | he
        · exact .inl rfl
        · exact .inr ⟨.lru, he⟩
      · split at he
        · exact .inr ⟨.lru, mem_toFront he⟩
        · exact .inr ⟨.lru, he⟩
  refine ⟨hL.known, hL.table, fun v e he => ?_, hL.used⟩
  show (b.pages e.value).id ∈ X
  rcases hq v e he with h | ⟨v', he⟩
  · rw [h]
    exact hid
  · exact hL.queues v' e he

/-- A slot gets a page of `X`. -/
theorem mem_of_taken {index : ℕ} {id : PageId} (hid : id ∈ X) {s : ℕ} (hs : s = index ∨ (b.pages s).id ∈ X) :
    ((b.modifyPage index fun page => { page with id := id }).pages s).id ∈ X := by
  by_cases e : s = index
  · rw [e, modifyPage_pages_self]
    exact hid
  · rw [modifyPage_pages_ne e]
    exact hs.resolve_left e

theorem Loaded.takeFreeSlot (hL : Loaded B X b) {id : PageId} {index : ℕ} (hid : id ∈ X) :
    Loaded B X (b.takeFreeSlot id index) where
  known := hL.known
  table id' s hs := by
    refine mem_of_taken hid ?_
    by_cases e : id' = id
    · subst e
      exact .inl (by simpa [PageBuffer.takeFreeSlot, eq_comm] using hs)
    · exact .inr (hL.table id' s (by simpa [PageBuffer.takeFreeSlot, AList.lookup_insert_ne e] using hs))
  queues v e he := by
    refine mem_of_taken hid ?_
    cases v with
    | fifo =>
      rcases List.mem_cons.mp he with rfl | he
      · exact .inl rfl
      · exact .inr (hL.queues .fifo e he)
    | lru => exact .inr (hL.queues .lru e he)
  used s hs hf := by
    refine mem_of_taken hid ?_
    by_cases e : s = index
    · exact .inl e
    · exact .inr (hL.used s hs fun h => hf (Finset.mem_erase.mpr ⟨e, h⟩))

theorem Loaded.replace (hL : Loaded B X b) {v : Victims} {key id : PageId} {index : ℕ} (hid : id ∈ X) :
    Loaded B X (b.replace v key id index) where
  known := by cases v <;> exact hL.known
  table id' s hs := by
    have hs' : ((b.pageTable.erase key).insert id index).lookup id' = some s := by cases v <;> exact hs
    have hpages : (b.replace v key id index).pages s =
        (b.modifyPage index fun page => { page with id := id }).pages s := by cases v <;> rfl
    rw [hpages]
    refine mem_of_taken hid ?_
    by_cases e : id' = id
    · subst e
      exact .inl (by simpa [eq_comm] using hs')
    · rw [AList.lookup_insert_ne e] at hs'
      by_cases e' : id' = key
      · subst e'
        rw [AList.lookup_erase] at hs'
        cases hs'
      · rw [AList.lookup_erase_ne e'] at hs'
        exact .inr (hL.table id' s hs')
  queues v' e he := by
    have hpages : (b.replace v key id index).pages e.value =
        (b.modifyPage index fun page => { page with id := id }).pages e.value := by cases v <;> rfl
    rw [hpages]
    refine mem_of_taken hid ?_
    cases v with
    | fifo =>
      cases v' with
      | fifo =>
        rcases List.mem_cons.mp he with rfl | he
        · exact .inl rfl
        · exact .inr (hL.queues .fifo e (mem_remove he))
      | lru => exact .inr (hL.queues .lru e he)
    | lru =>
      cases v' with
      | fifo =>
        rcases List.mem_cons.mp he with rfl | he
        · exact .inl rfl
        · exact .inr (hL.queues .fifo e he)
      | lru => exact .inr (hL.queues .lru e (mem_remove he))
  used s hs hf := by
    have hpages : (b.replace v key id index).pages s =
        (b.modifyPage index fun page => { page with id := id }).pages s := by cases v <;> rfl
    have hfree : (b.replace v key id index).freeSlots = b.freeSlots := by cases v <;> rfl
    rw [hpages]
    exact mem_of_taken hid (.inr (hL.used s hs (hfree ▸ hf)))

/-- What a command of the buffer that is `Within X` leaves. -/
theorem Loaded.step {c : BufCmd D β} {a : β} (hL : Loaded B X b) (hc : c.Within X b)
    (hr : PageBuffer.handler B β c b = .ok a b') :
    Loaded B X b' ∧ ∀ s, (b.pages s).id ∈ X → (b'.pages s).id ∈ X := by
  have hsame : b = b' → Loaded B X b' ∧ ∀ s, (b.pages s).id ∈ X → (b'.pages s).id ∈ X := by
    rintro rfl
    exact ⟨hL, fun _ => id⟩
  have htable : ∀ l, { b with tableMutex := l } = b' →
      Loaded B X b' ∧ ∀ s, (b.pages s).id ∈ X → (b'.pages s).id ∈ X := by
    rintro l rfl
    exact ⟨hL.congr le_rfl rfl (by intro v; cases v <;> rfl) rfl fun _ => rfl, fun _ => id⟩
  have hpage : ∀ (index : ℕ) (f : Page D → Page D), b.modifyPage index f = b' → (∀ page, (f page).id = page.id) →
      Loaded B X b' ∧ ∀ s, (b.pages s).id ∈ X → (b'.pages s).id ∈ X := by
    rintro index f rfl hf
    exact ⟨hL.modifyPage hf, fun s hs => by rwa [modifyPage_id hf]⟩
  cases c with
  | lockTable exclusive =>
    simp only [PageBuffer.handler] at hr
    split at hr
    · exact htable _ (Outcome.ok.inj hr).2
    · cases hr
  | unlockTable exclusive => exact htable _ (Outcome.ok.inj hr).2
  | findPage id => exact hsame (Outcome.ok.inj hr).2
  | hasSpace => exact hsame (Outcome.ok.inj hr).2
  | reposition id index =>
    obtain rfl : b.reposition id index = b' := (Outcome.ok.inj hr).2
    exact ⟨hL.reposition hc, fun _ h => h⟩
  | takeFreeSlot id =>
    simp only [PageBuffer.handler] at hr
    split at hr
    · cases hr
    · obtain ⟨-, rfl⟩ := Outcome.ok.inj hr
      exact ⟨hL.takeFreeSlot hc, fun s hs => mem_of_taken hc (.inr hs)⟩
  | readQueue v => exact hsame (Outcome.ok.inj hr).2
  | replace v key id index =>
    obtain rfl : b.replace v key id index = b' := (Outcome.ok.inj hr).2
    refine ⟨hL.replace hc, fun s hs => ?_⟩
    have hpages : (b.replace v key id index).pages s =
        (b.modifyPage index fun page => { page with id := id }).pages s := by cases v <;> rfl
    rw [hpages]
    exact mem_of_taken hc (.inr hs)
  | incPins index => exact hpage index _ (Outcome.ok.inj hr).2 fun _ => rfl
  | decPins index => exact hpage index _ (Outcome.ok.inj hr).2 fun _ => rfl
  | getPins index => exact hsame (Outcome.ok.inj hr).2
  | setPins index pins => exact hpage index _ (Outcome.ok.inj hr).2 fun _ => rfl
  | getDirty index => exact hsame (Outcome.ok.inj hr).2
  | setDirty index dirty => exact hpage index _ (Outcome.ok.inj hr).2 fun _ => rfl
  | lockPage index exclusive =>
    simp only [PageBuffer.handler] at hr
    split at hr
    · exact hpage index _ (Outcome.ok.inj hr).2 fun _ => rfl
    · cases hr
  | unlockPage index => exact hpage index _ (Outcome.ok.inj hr).2 fun _ => rfl
  | savePage index =>
    obtain rfl : b.save index = b' := (Outcome.ok.inj hr).2
    exact ⟨hL.congr le_rfl rfl (by intro v; cases v <;> rfl) rfl fun _ => rfl, fun _ => id⟩
  | loadPage id index => exact hpage index _ (Outcome.ok.inj hr).2 fun _ => rfl
  | evalMode index f => exact hsame (Outcome.ok.inj hr).2
  | isFree index => exact hsame (Outcome.ok.inj hr).2
  | createBlock => exact absurd hc id
  | readPage index => exact hsame (Outcome.ok.inj hr).2
  | writePage index d => exact hpage index _ (Outcome.ok.inj hr).2 fun _ => rfl
  | check c =>
    simp only [PageBuffer.handler] at hr
    split at hr
    · cases hr
    · exact hsame (Outcome.ok.inj hr).2
  | raise e => cases hr

/-! ### Programs of the buffer -/

/-- The same for the commands of a tree over the buffer. -/
def StoreWithin (X : Set PageId) : (β : Type) → StoreCmd D H β → Store D H → Prop
  | _, .inl c, v => c.Within X v.buf
  | _, .inr _, _ => True

/-- The pages in memory are of `X`, and so are those in the slots `l`. -/
structure Knows (B : BufRules) (X : Set PageId) (l : List ℕ) (v : Store D H) : Prop where
  loaded : Loaded B X v.buf
  slots : ∀ s ∈ l, (v.buf.pages s).id ∈ X

theorem Knows.step {l : List ℕ} {c : StoreCmd D H β} {a : β} {v v' : Store D H} (hK : Knows B X l v)
    (hc : StoreWithin X β c v) (hr : (Store.handler B).steps β c v a v') : Knows B X l v' := by
  cases c with
  | inl c =>
    simp only [Handler.steps, Store.handler] at hr
    split at hr
    next a' b' h =>
      obtain ⟨-, rfl⟩ := Outcome.ok.inj hr
      obtain ⟨hL, hs⟩ := hK.loaded.step hc h
      exact ⟨hL, fun s h => hs s (hK.slots s h)⟩
    next => cases hr
  | inr c =>
    have hbuf : v'.buf = v.buf := by cases c <;> cases hr <;> rfl
    exact ⟨hbuf ▸ hK.loaded, hbuf ▸ hK.slots⟩

/-- Every run of the program on such a buffer issues commands that are within `X` only. -/
def Stays (H : Type) (B : BufRules) (X : Set PageId) (l : List ℕ) (p : BufProg D α) : Prop :=
  ∀ v : Store D H, Knows B X l v →
    Always (Store.handler B).steps (StoreWithin X) (StoreProg.buf p) v fun _ _ => True

section Rules

variable {l : List ℕ} {p : BufProg D α}

theorem Stays.always (hp : Stays H B X l p) {v : Store D H} (hK : Knows B X l v) :
    Always (Store.handler B).steps (StoreWithin X) (StoreProg.buf p) v fun _ v' => Knows B X l v' :=
  ((hp v hK).keeps (fun _ _ _ _ _ hK hc hr => hK.step hc hr) hK).mono fun _ _ h => h.2

theorem stays_ret {a : α} : Stays H B X l (.ret a : BufProg D α) := fun _ _ => always_ret trivial

theorem stays_bind {f : α → BufProg D β} (hp : Stays H B X l p) (hf : ∀ a, Stays H B X l (f a)) :
    Stays H B X l (p.bind f) := by
  intro v hK
  rw [StoreProg.buf, Prog.lift, Prog.expand_bind]
  exact always_bind ((hp.always hK).mono fun a v' hK' => hf a v' hK')

/-- A command; `l'` are the slots that it tells something about. -/
theorem stays_call {c : BufCmd D β} {k : β → BufProg D α} (l' : β → List ℕ)
    (hc : ∀ b : PageBuffer D, Loaded B X b → (∀ s ∈ l, (b.pages s).id ∈ X) → c.Within X b ∧
      ∀ a b', PageBuffer.handler B β c b = .ok a b' → ∀ s ∈ l' a, (b'.pages s).id ∈ X)
    (hk : ∀ a, Stays H B X (l' a ++ l) (k a)) : Stays H B X l (.call c k) := by
  intro v hK
  obtain ⟨hwithin, hlearn⟩ := hc v.buf hK.loaded hK.slots
  refine always_call hwithin fun a v' hr => ?_
  have hK' := hK.step (c := .inl c) hwithin hr
  refine hk a v' ⟨hK'.loaded, fun s hs => ?_⟩
  rcases List.mem_append.mp hs with hs | hs
  · simp only [Handler.steps, Store.handler] at hr
    split at hr
    next a' b' h =>
      obtain ⟨rfl, rfl⟩ := Outcome.ok.inj hr
      exact hlearn _ _ h s hs
    next => cases hr
  · exact hK'.slots s hs

/-- A command that is about no page. -/
theorem stays_cmd {c : BufCmd D β} {k : β → BufProg D α} (hc : ∀ b : PageBuffer D, c.Within X b)
    (hk : ∀ a, Stays H B X l (k a)) : Stays H B X l (.call c k) :=
  stays_call (fun _ => []) (fun b _ _ => ⟨hc b, by simp⟩) hk

theorem stays_loop {σ : Type} {body : σ → BufProg D (σ ⊕ β)} {s : σ} {k : β → BufProg D α}
    (hbody : ∀ s, Stays H B X l (body s)) (hk : ∀ b, Stays H B X l (k b)) :
    Stays H B X l (.loop body s k) := by
  intro v hK
  refine always_loop (fun _ v => Knows B X l v) (fun s v hK => ?_) hK
  refine ((hbody s).always hK).mono ?_
  rintro (s' | b) v' hK'
  · exact hK'
  · exact hk b v' hK'

theorem stays_findM {f : β → BufProg D Bool} {as : List β} (hf : ∀ a, Stays H B X l (f a)) :
    Stays H B X l (as.findM? f) := by
  induction as with
  | nil => exact stays_ret
  | cons a as ih =>
    refine stays_bind (hf a) fun r => ?_
    cases r
    · exact ih
    · exact stays_ret

/-- The page that the table has for an id. -/
theorem stays_findPage {id : PageId} {k : Option ℕ → BufProg D α} (hnone : Stays H B X l (k none))
    (hsome : ∀ s, Stays H B X (s :: l) (k (some s))) : Stays H B X l (.call (.findPage id) k) := by
  refine stays_call (fun o => o.toList) (fun b hL _ => ⟨trivial, fun a b' hr s hs => ?_⟩) fun a => ?_
  · obtain ⟨rfl, rfl⟩ := Outcome.ok.inj hr
    exact hL.table id s (Option.mem_toList.mp hs)
  · cases a with
    | none => exact hnone
    | some s => exact hsome s

/-- The pages of a queue. -/
theorem stays_readQueue {v : Victims} {k : Queue PageId ℕ → BufProg D α}
    (hk : ∀ q : Queue PageId ℕ, Stays H B X (q.entryQueue.map QueueNode.value ++ l) (k q)) :
    Stays H B X l (.call (.readQueue v) k) := by
  refine stays_call (fun q => q.entryQueue.map QueueNode.value) (fun b hL _ => ⟨trivial, fun a b' hr s hs => ?_⟩) hk
  obtain ⟨rfl, rfl⟩ := Outcome.ok.inj hr
  obtain ⟨e, he, rfl⟩ := List.mem_map.mp hs
  exact hL.queues v e he

end Rules

section Operations

variable {l : List ℕ} {id : PageId} {mode : LatchMode D} {skipLoad exclusivePageTableLock : Bool} {index : ℕ}

theorem stays_latchPage : Stays H B X l (latchPage index mode) := by
  cases mode with
  | fixed exclusive => exact stays_cmd (fun _ => trivial) fun _ => stays_ret
  | modeFunction f => exact stays_cmd (fun _ => trivial) fun _ => stays_cmd (fun _ => trivial) fun _ => stays_ret

theorem stays_loadAndLatch (hid : id ∈ X) : Stays H B X l (loadAndLatch id mode skipLoad index) := by
  unfold loadAndLatch
  simp only [Prog.bind_def, Prog.cmd_bind]
  split
  · exact stays_cmd (fun _ => trivial) fun _ => stays_latchPage
  · exact stays_cmd (fun _ => trivial) fun _ => stays_cmd (fun _ => trivial) fun _ => stays_cmd (fun _ => hid)
      fun _ => stays_cmd (fun _ => trivial) fun _ => stays_latchPage

theorem stays_pinHit (hl : index ∈ l) : Stays H B X l (pinHit id mode exclusivePageTableLock index) := by
  unfold pinHit
  simp only [Prog.bind_def, Prog.cmd_bind, Prog.pure_def]
  have hlast : ∀ r : Bool ⊕ ℕ, Stays H B X l (.call (.unlockTable exclusivePageTableLock) fun _ =>
      (latchPage index mode).bind fun _ => .ret r) := fun r =>
    stays_cmd (fun _ => trivial) fun _ => stays_bind stays_latchPage fun _ => stays_ret
  refine stays_cmd (fun _ => trivial) fun pins => stays_cmd (fun _ => trivial) fun _ => ?_
  split
  · exact stays_cmd (fun _ => trivial) fun _ => stays_cmd (fun _ => trivial) fun _ => stays_ret
  · split
    · exact stays_call (fun _ => []) (fun b _ hs => ⟨hs index hl, by simp⟩) fun _ => hlast _
    · exact hlast _

theorem stays_pinFree (hid : id ∈ X) : Stays H B X l (pinFree id mode skipLoad exclusivePageTableLock) := by
  unfold pinFree
  simp only [Prog.bind_def, Prog.cmd_bind, Prog.pure_def]
  split
  · exact stays_cmd (fun _ => trivial) fun _ => stays_ret
  · refine stays_cmd (fun _ => hid) fun freeIndex => stays_cmd (fun _ => trivial) fun pins => ?_
    refine stays_cmd (fun _ => trivial) fun _ => stays_cmd (fun _ => trivial) fun _ => ?_
    exact stays_cmd (fun _ => trivial) fun _ => stays_bind (stays_loadAndLatch hid) fun _ => stays_ret

theorem stays_writeBack (hl : index ∈ l) : Stays H B X l (D := D) (writeBack exclusivePageTableLock index) := by
  unfold writeBack
  simp only [Prog.bind_def, Prog.cmd_bind, Prog.pure_def]
  refine stays_cmd (fun _ => trivial) fun dirty => ?_
  split
  · refine stays_cmd (fun _ => trivial) fun _ => stays_cmd (fun _ => trivial) fun _ => ?_
    refine stays_cmd (fun _ => trivial) fun _ => stays_call (fun _ => []) (fun b _ hs => ⟨hs index hl, by simp⟩) ?_
    exact fun _ => stays_cmd (fun _ => trivial) fun _ => stays_cmd (fun _ => trivial) fun _ => stays_ret
  · split
    · exact stays_cmd (fun _ => trivial) fun _ => stays_cmd (fun _ => trivial) fun _ => stays_ret
    · exact stays_ret

theorem stays_stillEvictable {v : Victims} {key : PageId} : Stays H B X l (D := D) (stillEvictable v key id index) := by
  unfold stillEvictable
  simp only [Prog.bind_def, Prog.cmd_bind, Prog.pure_def]
  refine stays_cmd (fun _ => trivial) fun o => ?_
  split
  · exact stays_ret
  · refine stays_cmd (fun _ => trivial) fun q => ?_
    split
    · exact stays_ret
    · refine stays_cmd (fun _ => trivial) fun pins => ?_
      split
      · exact stays_ret
      · exact stays_cmd (fun _ => trivial) fun _ => stays_ret

theorem stays_pinEvict (hid : id ∈ X) {v : Victims} {key : PageId} :
    Stays H B X l (pinEvict id mode skipLoad exclusivePageTableLock v key) := by
  unfold pinEvict
  simp only [Prog.bind_def, Prog.cmd_bind, Prog.pure_def]
  refine stays_readQueue fun q => ?_
  split
  · exact stays_cmd (fun _ => trivial) fun e => e.elim
  next pageIndex hfind =>
    obtain ⟨e, he, hvalue⟩ := mem_of_find hfind
    have hl : pageIndex ∈ q.entryQueue.map QueueNode.value ++ l :=
      List.mem_append_left _ (List.mem_map.mpr ⟨e, he, hvalue⟩)
    refine stays_cmd (fun _ => trivial) fun _ => stays_bind (stays_writeBack hl) fun _ => ?_
    refine stays_bind stays_stillEvictable fun r => ?_
    split
    · refine stays_cmd (fun _ => hid) fun _ => stays_cmd (fun _ => trivial) fun _ => ?_
      exact stays_bind (stays_loadAndLatch hid) fun _ => stays_ret
    · exact stays_cmd (fun _ => trivial) fun _ => stays_cmd (fun _ => trivial) fun _ => stays_ret

theorem stays_findUnpinned {v : Victims} : Stays H B X l (D := D) (findUnpinned v) := by
  unfold findUnpinned Queue.findOne
  simp only [Prog.bind_def, Prog.cmd_bind, Prog.pure_def]
  refine stays_cmd (fun _ => trivial) fun q => stays_bind (stays_findM fun e => ?_) fun _ => stays_ret
  exact stays_cmd (fun _ => trivial) fun _ => stays_ret

theorem stays_pinAttempt (hid : id ∈ X) :
    Stays H B X l (pinAttempt id mode skipLoad exclusivePageTableLock) := by
  unfold pinAttempt
  simp only [Prog.bind_def, Prog.cmd_bind]
  refine stays_cmd (fun _ => trivial) fun _ => stays_findPage ?_ fun s => stays_pinHit List.mem_cons_self
  refine stays_cmd (fun _ => trivial) fun space => ?_
  split
  · exact stays_pinFree hid
  · refine stays_bind stays_findUnpinned fun o => ?_
    split
    · exact stays_pinEvict hid
    · refine stays_bind stays_findUnpinned fun o => ?_
      split
      · exact stays_pinEvict hid
      · exact stays_cmd (fun _ => trivial) fun e => e.elim

theorem stays_pinPage (hid : id ∈ X) : Stays H B X l (pinPage id mode skipLoad) :=
  stays_loop (fun _ => stays_pinAttempt hid) fun _ => stays_ret

theorem stays_unpinPage {dirty : Bool} : Stays H B X l (D := D) (unpinPage index dirty) := by
  unfold unpinPage
  simp only [Prog.bind_def, Prog.cmd_bind]
  have hlast : Stays H B X l (D := D) (.call (.unlockPage index) fun _ => .cmd (.decPins index)) :=
    stays_cmd (fun _ => trivial) fun _ => stays_cmd (fun _ => trivial) fun _ => stays_ret
  refine stays_cmd (fun _ => trivial) fun pins => stays_cmd (fun _ => trivial) fun _ => ?_
  split
  · exact stays_cmd (fun _ => trivial) fun _ => hlast
  · exact hlast

end Operations

/-! ### Operations of a tree -/

/-- The ids that were handed out. -/
def BufRules.created (B : BufRules) (n : ℕ) : Set PageId := {id | ∃ i < n, B.ids i = id}

/-- The commands of a tree over the buffer are about pages that were created, `n` of them at most. -/
def StoreKnown (B : BufRules) (n : ℕ) : (β : Type) → StoreCmd D H β → Store D H → Prop
  | _, .inl .createBlock, v => v.buf.created < n
  | β, c, v => StoreWithin (B.created v.buf.created) β c v

theorem StoreWithin.known {n : ℕ} {c : StoreCmd D H β} {v : Store D H} (h : X ⊆ B.created v.buf.created)
    (hc : StoreWithin X β c v) : StoreKnown B n β c v := by
  cases c with
  | inl c => cases c <;> first | exact h hc | exact absurd hc id | exact trivial
  | inr c => exact trivial

theorem Stays.known {p : BufProg D α} {m n : ℕ} (hp : Stays H B (B.created m) [] p) {v : Store D H}
    (hL : Loaded B (B.created m) v.buf) :
    Always (Store.handler B).steps (StoreKnown B n) (StoreProg.buf p) v
      fun _ v' => Loaded B (B.created m) v'.buf := by
  have hK : Knows B (B.created m) [] v := ⟨hL, by simp⟩
  intro i q v' hr
  have hK' := (hp v hK).holds (fun _ _ _ _ _ hK hc hr => hK.step hc hr) hK hr
  obtain ⟨hc, -⟩ := hp v hK i q v' hr
  exact ⟨fun β c k e => (hc β c k e).known fun id hid => hK'.loaded.known id hid, fun _ _ => hK'.loaded⟩

section Commands

variable {R : PageRules} {w w₁ : PageWorld D H} {v : Store D H} {id : PageId} {m n : ℕ}

/-- An access to the variables of the tree. -/
theorem always_var {c : VarCmd H β} {k : β → StoreProg D H α} {Q : α → Store D H → Prop}
    (hk : ∀ a v', v'.buf = v.buf → Always (Store.handler B).steps (StoreKnown B n) (k a) v' Q) :
    Always (Store.handler B).steps (StoreKnown B n) (.call (.inr c) k) v Q := by
  refine always_call trivial fun a v' hr => hk a v' ?_
  cases c <;> cases hr <;> rfl

/-- An access to a page through its reference. -/
theorem always_ref {p : ℕ → BufProg D β} (hp : ∀ index, Stays H B (B.created m) [] (p index))
    (hL : Loaded B (B.created m) v.buf) :
    Always (Store.handler B).steps (StoreKnown B n) ((StoreProg.getRef id).bind fun index => StoreProg.buf (p index)) v
      fun _ v' => Loaded B (B.created m) v'.buf :=
  always_var fun index _ hv => (hp index).known (hv ▸ hL)

/-- A command of a tree that the ideal store allows is about pages that were created. -/
theorem always_onBuffer (hB : B.ids = R.ids) {c : PageCmd D H β} {b : β} (hM : v.buf.created = w.created)
    (hL : Loaded B (B.created w.created) v.buf) (hc : PageWorld.handler R β c w = .ok b w₁)
    (hn : w₁.created ≤ n) :
    Always (Store.handler B).steps (StoreKnown B n) (PageCmd.onBuffer β c) v
      fun _ v₁ => Loaded B (B.created w₁.created) v₁.buf := by
  cases c with
  | createPage =>
    obtain ⟨-, rfl⟩ := Outcome.ok.inj hc
    refine always_call (show v.buf.created < n by rw [hM]; exact hn) fun a v' hr => always_ret ?_
    obtain ⟨-, rfl⟩ := Outcome.ok.inj hr
    have hL' : Loaded B (B.created w.created) { v.buf with created := v.buf.created + 1 } :=
      hL.congr (Nat.le_succ _) rfl (by intro v; cases v <;> rfl) rfl fun _ => rfl
    refine hL'.mono ?_ ?_
    · rintro id ⟨i, hi, e⟩
      exact ⟨i, Nat.lt_succ_of_lt hi, e⟩
    · rintro id ⟨i, hi, e⟩
      exact ⟨i, by rwa [hM], e⟩
  | pinPage id mode skipLoad =>
    simp only [PageWorld.handler] at hc
    split at hc
    · cases hc
    · split at hc
      · cases hc
      · split at hc
        · cases hc
        next hcreated =>
          obtain ⟨-, rfl⟩ := Outcome.ok.inj hc
          have hid : id ∈ B.created w.created := by
            have hid : w.isCreated R id = true := by
              by_contra h
              simp [h] at hcreated
            obtain ⟨i, hi, e⟩ := List.any_eq_true.mp hid
            exact ⟨i, List.mem_range.mp hi, by rw [hB]; exact beq_iff_eq.mp e⟩
          refine always_bind (((stays_pinPage hid).known hL).mono fun index v' hL' => ?_)
          exact always_var fun _ v₁ hv => always_ret (hv ▸ hL')
  | unpinPage id dirty =>
    simp only [PageWorld.handler] at hc
    split at hc
    · cases hc
    · obtain ⟨-, rfl⟩ := Outcome.ok.inj hc
      exact always_ref (fun _ => stays_unpinPage) hL
  | read id =>
    obtain rfl : w = w₁ := by
      simp only [PageWorld.handler] at hc
      split at hc
      · split at hc
        · exact (Outcome.ok.inj hc).2
        · cases hc
      · cases hc
    exact always_ref (p := fun index => .cmd (.readPage index))
      (fun _ => stays_cmd (fun _ => trivial) fun _ => stays_ret) hL
  | peek id f =>
    obtain rfl : w = w₁ := by
      simp only [PageWorld.handler] at hc
      split at hc
      · split at hc
        · exact (Outcome.ok.inj hc).2
        · cases hc
      · cases hc
    simp only [PageCmd.onBuffer, StoreProg.getRef, Prog.bind_def, Prog.cmd_bind]
    refine always_var fun index v' hv => always_bind ?_
    have hread : Stays H B (B.created w.created) [] (.cmd (.readPage index) : BufProg D D) :=
      stays_cmd (fun _ => trivial) fun _ => stays_ret
    refine (hread.known (hv ▸ hL)).mono fun d v₁ hL₁ => always_ret ?_
    exact hL₁
  | write id d =>
    simp only [PageWorld.handler] at hc
    split at hc
    · obtain ⟨-, rfl⟩ := Outcome.ok.inj hc
      exact always_ref (p := fun index => .cmd (.writePage index d))
        (fun _ => stays_cmd (fun _ => trivial) fun _ => stays_ret) hL
    · cases hc
  | header f =>
    obtain ⟨-, rfl⟩ := Outcome.ok.inj hc
    exact always_var fun _ v₁ hv => always_ret (hv ▸ hL)
  | check a =>
    simp only [PageWorld.handler] at hc
    split at hc
    · cases hc
    · obtain ⟨-, rfl⟩ := Outcome.ok.inj hc
      have hcheck : Stays H B (B.created w.created) [] (.cmd (.check a) : BufProg D Unit) :=
        stays_cmd (fun _ => trivial) fun _ => stays_ret
      exact hcheck.known hL
  | raise e => cases hc

/-- A store that mirrors an ideal one, with pages in memory that were created. -/
structure MirrorsKnown (B : BufRules) (w : PageWorld D H) (v : Store D H) : Prop where
  mirrors : Mirrors B w v
  loaded : Loaded B (B.created w.created) v.buf

/-- On the way of a run on the ideal store, the page buffer is asked for pages that were created. -/
theorem MirrorsKnown.always {T : StoreErr → Prop} (hB : Serves B R T) (hM : MirrorsKnown B w v)
    {p : PageProg D H α} {Q : α → PageWorld D H → Prop}
    (hp : Runs (PageWorld.handler R) p w fun a w₁ => w₁.kept ∧ w₁.created ≤ n ∧ Q a w₁) :
    Always (Store.handler B).steps (StoreKnown B n) (onBuffer p) v
      fun a v₁ => ∃ w₁, MirrorsKnown B w₁ v₁ ∧ w₁.kept ∧ Q a w₁ := by
  obtain ⟨i, a, w₁, hi, hk, hn, hQ⟩ := hp
  refine (always_expand (G := fun w => w.kept ∧ w.created ≤ n) (S := MirrorsKnown B)
    (fun _ _ _ _ _ hc h => ⟨kept_of_handler hc h.1, (created_of_handler hc).trans h.2⟩)
    (fun _ _ _ _ _ _ hM hc h => ?_) hM hi ⟨hk, hn⟩).mono ?_
  · have hends := ends_onBuffer hB hM.mirrors hc h.1
    exact ((always_onBuffer hB.ids hM.mirrors.created hM.loaded hc h.2).ends hends).mono
      fun _ _ h => ⟨h.2.1, h.2.2, h.1⟩
  · rintro _ v₁ ⟨rfl, hM₁⟩
    exact ⟨w₁, hM₁, hk, hQ⟩

end Commands

end BEpsilon.Buffer
