import BEpsilon.Lib.Always
import BEpsilon.Buffer.PageLogic

/-!
# BEpsilon.Buffer.PageFull — where a run finds the buffer full

`FullOnly R P` says of a command that, if it finds the buffer full, the world is as `P` says; the rules
carry it through a program.  While nothing has been written, the pinned pages are as they were when they
were pinned (`Clean`), so that they may be released clean.
-/

namespace BEpsilon

/-- The rules with room for every page. -/
def PageRules.unlimited (R : PageRules) : PageRules := { R with limit := none }

namespace PageWorld

variable {D H α : Type}

/-- Is it a `pinPage`? -/
def isPin {β : Type} : PageCmd D H β → Bool
  | .pinPage _ _ _ => true
  | _ => false

/-- Where the command finds the buffer full it is a `pinPage`, and `P` is true of the world. -/
def FullOnly (R : PageRules) (P : PageWorld D H → Prop) : (β : Type) → PageCmd D H β → PageWorld D H → Prop :=
  fun β c w => ∀ w', handler R β c w = .raise .bufferFull w' → isPin c = true ∧ P w'

/-- The pinned pages are in memory as they were when they were pinned. -/
def Clean (mem : PageId → Option D) (pins : List (PageId × Option D)) : Prop :=
  ∀ p ∈ pins, p.2 = mem p.1 ∧ p.2.isSome

variable {R : PageRules} {P : PageWorld D H → Prop} {mem : PageId → Option D} {created : ℕ} {header : H}
  {pins : List (PageId × Option D)} {recent : List PageId} {kept : Prop} {id : PageId} {w : PageWorld D H}
  {Q : α → PageWorld D H → Prop}

/-- A command that raises leaves the world as it was. -/
theorem handler_raise {β : Type} {c : PageCmd D H β} {e : PageErr} {w' : PageWorld D H}
    (hr : handler R β c w = .raise e w') : w' = w := by
  cases c <;> grind [handler]

theorem clean_nil : Clean mem [] := by
  intro p hp
  cases hp

theorem Clean.cons (hc : Clean mem pins) (id : PageId) (hid : (mem id).isSome) : Clean mem ((id, mem id) :: pins) := by
  intro p hp
  rcases List.mem_cons.mp hp with rfl | hp
  · exact ⟨rfl, hid⟩
  · exact hc p hp

/-- May the command find the buffer full? -/
def mayFill {β : Type} : PageCmd D H β → Bool
  | .pinPage _ _ _ => true
  | .raise e => e == .bufferFull
  | _ => false

theorem fullOnly_other {β : Type} {c : PageCmd D H β} (hc : mayFill c = false) : FullOnly R P β c w := by
  intro w' hr
  cases c with
  | pinPage id mode skipLoad => cases hc
  | createPage => cases hr
  | unpinPage id dirty =>
    simp only [handler] at hr
    split at hr <;> cases hr
  | read id =>
    simp only [handler] at hr
    split at hr
    · split at hr <;> cases hr
    · cases hr
  | peek id f =>
    simp only [handler] at hr
    split at hr
    · split at hr <;> cases hr
    · cases hr
  | write id d =>
    simp only [handler] at hr
    split at hr <;> cases hr
  | header f => cases hr
  | check b =>
    simp only [handler] at hr
    split at hr <;> cases hr
  | raise e =>
    obtain ⟨rfl, -⟩ := by simpa [handler] using hr
    cases hc

section Rules

/-- Whatever a command that pins nothing does to the world. -/
theorem full_other {β : Type} {c : PageCmd D H β} {k : β → PageProg D H α} (hc : mayFill c = false)
    (hk : ∀ b w', Always (handler R).steps (FullOnly R P) (k b) w' Q) :
    Always (handler R).steps (FullOnly R P) (.call c k) w Q :=
  always_call (fullOnly_other hc) fun b w' _ => hk b w'

theorem full_createPage {f : PageId → PageProg D H α}
    (h : Always (handler R).steps (FullOnly R P) (f (R.ids created)) ⟨mem, created + 1, header, pins, recent, kept⟩ Q) :
    Always (handler R).steps (FullOnly R P) (PageProg.createPage.bind f)
      ⟨mem, created, header, pins, recent, kept⟩ Q := by
  refine always_call (fullOnly_other rfl) ?_
  intro b w' hs
  obtain ⟨rfl, rfl⟩ := by simpa [Handler.steps, handler] using hs
  exact h

theorem full_pinPage {n : ℕ} {mode : LatchMode D} {skipLoad : Bool} {f : Unit → PageProg D H α}
    (hn : R.limit = some n) (hfull : n ≤ pins.length → P ⟨mem, created, header, pins, recent, kept⟩)
    (h : pins.length < n → (mem id).isSome = !skipLoad →
      Always (handler R).steps (FullOnly R P) (f ()) ⟨mem, created, header, (id, mem id) :: pins, [], kept⟩ Q) :
    Always (handler R).steps (FullOnly R P) ((PageProg.pinPage id mode skipLoad).bind f)
      ⟨mem, created, header, pins, recent, kept⟩ Q := by
  refine always_call ?_ ?_
  · intro w' hr
    simp only [handler, hn, Option.any_some, decide_eq_true_eq] at hr
    split at hr
    · cases hr
    split at hr
    next hle =>
      obtain rfl := by simpa using hr
      exact ⟨rfl, hfull hle⟩
    next =>
      split at hr
      · cases hr
      · cases hr
  · intro b w' hs
    simp only [Handler.steps, handler, hn, Option.any_some, decide_eq_true_eq] at hs
    split at hs
    · cases hs
    split at hs
    · cases hs
    next hlt =>
      split at hs
      · cases hs
      next hskip =>
        obtain rfl := by simpa using hs
        refine h (Nat.lt_of_not_le hlt) ?_
        cases hm : (mem id).isSome <;> cases skipLoad <;> simp_all

/-- A page that has not changed since it was pinned is released. -/
theorem full_unpinPage {dirty : Bool} {f : Unit → PageProg D H α} (hc : Clean mem pins)
    (h : ∀ pins', Clean mem pins' → pins'.length + 1 = pins.length →
      Always (handler R).steps (FullOnly R P) (f ()) ⟨mem, created, header, pins', id :: recent, True⟩ Q) :
    Always (handler R).steps (FullOnly R P) ((PageProg.unpinPage id dirty).bind f)
      ⟨mem, created, header, pins, recent, True⟩ Q := by
  refine always_call (fullOnly_other rfl) ?_
  intro b w' hs
  simp only [Handler.steps, handler] at hs
  split at hs
  · cases hs
  next p hf =>
    have hp := List.mem_of_find?_eq_some hf
    obtain rfl : p.1 = id := by simpa using List.find?_some hf
    obtain ⟨hs₀, hsome⟩ := hc p hp
    have hkept : (True ∧ (mem p.1).isSome = true ∧ (dirty = true ∨ mem p.1 = p.2)) = True := by
      simp [← hs₀, hsome]
    rw [hkept] at hs
    obtain rfl := by simpa using hs
    have hlen := List.length_eraseP_of_mem (p := fun q : PageId × Option D => q.1 == p.1) hp (by simp)
    have hpos := List.length_pos_of_mem hp
    exact h _ (fun q hq => hc q (List.mem_of_mem_eraseP hq)) (by omega)

theorem full_read {f : D → PageProg D H α}
    (h : ∀ d, mem id = some d →
      Always (handler R).steps (FullOnly R P) (f d) ⟨mem, created, header, pins, recent, kept⟩ Q) :
    Always (handler R).steps (FullOnly R P) ((PageProg.read id).bind f)
      ⟨mem, created, header, pins, recent, kept⟩ Q := by
  refine always_call (fullOnly_other rfl) ?_
  intro b w' hs
  simp only [Handler.steps, handler] at hs
  split at hs
  next d hd =>
    split at hs
    · obtain ⟨rfl, rfl⟩ := by simpa using hs
      exact h d hd
    · cases hs
  · cases hs

theorem full_write {d : D} {f : Unit → PageProg D H α}
    (h : Always (handler R).steps (FullOnly R P) (f ())
      ⟨Function.update mem id (some d), created, header, pins, recent, kept⟩ Q) :
    Always (handler R).steps (FullOnly R P) ((PageProg.write id d).bind f)
      ⟨mem, created, header, pins, recent, kept⟩ Q := by
  refine always_call (fullOnly_other rfl) ?_
  intro b w' hs
  simp only [Handler.steps, handler] at hs
  split at hs
  · obtain rfl := by simpa using hs
    exact h
  · cases hs

theorem full_getHeader {f : H → PageProg D H α}
    (h : Always (handler R).steps (FullOnly R P) (f header) ⟨mem, created, header, pins, recent, kept⟩ Q) :
    Always (handler R).steps (FullOnly R P) (PageProg.getHeader.bind f)
      ⟨mem, created, header, pins, recent, kept⟩ Q := by
  refine always_call (fullOnly_other rfl) ?_
  intro b w' hs
  obtain ⟨rfl, rfl⟩ := by simpa [Handler.steps, handler] using hs
  exact h

theorem full_check {b : Bool} {f : Unit → PageProg D H α}
    (h : Always (handler R).steps (FullOnly R P) (f ()) w Q) :
    Always (handler R).steps (FullOnly R P) ((PageProg.check b).bind f) w Q := by
  refine always_call (fullOnly_other rfl) ?_
  intro b' w' hs
  simp only [Handler.steps, handler] at hs
  split at hs
  · cases hs
  · obtain rfl := by simpa using hs
    exact h

end Rules

/-- A command that returns when there is room for every page returns as well, or finds the buffer full. -/
theorem handler_limited {β : Type} {c : PageCmd D H β} {b : β} {w₁ : PageWorld D H}
    (hc : handler R.unlimited β c w = .ok b w₁) :
    handler R β c w = .ok b w₁ ∨ handler R β c w = .raise .bufferFull w := by
  cases c with
  | pinPage id mode skipLoad =>
    simp only [handler] at hc ⊢
    split at hc
    · cases hc
    next hpin =>
      rw [if_neg hpin]
      split
      · exact .inr rfl
      · rw [if_neg (by simp [PageRules.unlimited])] at hc
        exact .inl hc
  | createPage => exact .inl hc
  | unpinPage => exact .inl hc
  | read => exact .inl hc
  | peek => exact .inl hc
  | write => exact .inl hc
  | header => exact .inl hc
  | check => exact .inl hc
  | raise => exact .inl hc

/-- What returns when there is room for every page returns as well, or finds the buffer full. -/
theorem runs_or_full {p : PageProg D H α} (hp : Runs (handler R.unlimited) p w Q) :
    Runs (handler R) p w Q ∨ Raises (handler R) p w .bufferFull fun _ => True := by
  obtain ⟨n, a, w', he, hQ⟩ := hp
  induction n generalizing p w with
  | zero => simp [exec] at he
  | succ n ih =>
    cases p with
    | ret b =>
      obtain ⟨rfl, rfl⟩ := by simpa [exec] using he
      exact .inl (runs_ret hQ)
    | call c k =>
      simp only [exec] at he
      split at he
      next b w₁ hc =>
        rcases handler_limited hc with hok | hfull
        · exact (ih he).imp (fun hr => runs_call hok hr) fun hr => raises_call_ok hok hr
        · exact .inr (raises_call hfull trivial)
      next => simp at he
    | loop body s k =>
      exact (ih (p := Prog.unroll body s k) he).imp (fun hr => runs_unroll hr) fun hr => raises_unroll hr

end PageWorld

end BEpsilon
