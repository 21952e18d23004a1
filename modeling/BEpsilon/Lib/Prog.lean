import Mathlib.Logic.Function.Basic
import Mathlib.Tactic.Common

/-!
# BEpsilon.Lib.Prog — programs over a set of commands, and how they run

`Prog C α` is the text of a program that issues commands of `C` and returns an `α`.  A `Handler`
gives the commands a meaning on a world `W`; one text can so be run on an ideal memory, on a real
cache or be interleaved with others.  `exec` runs a program with fuel, `Runs` is total correctness
(some fuel is enough and the result satisfies the postcondition), with one rule for each form of
program.  `Prog.expand` turns commands into programs over other commands, and `ends_expand` carries a
run to the expanded program.  Nothing here is about pages.
-/

namespace BEpsilon

/-- Programs over the commands `C`.  `loop body s k` runs `body` from `s` until it answers `inr`. -/
inductive Prog (C : Type → Type) : Type → Type 1
  | ret {α : Type} (a : α) : Prog C α
  | call {α β : Type} (c : C β) (k : β → Prog C α) : Prog C α
  | loop {α σ β : Type} (body : σ → Prog C (σ ⊕ β)) (s : σ) (k : β → Prog C α) : Prog C α

namespace Prog

variable {C : Type → Type} {α β γ : Type}

/-- Sequencing: graft `f` onto every leaf. -/
def bind {α β : Type} : Prog C α → (α → Prog C β) → Prog C β
  | ret a, f => f a
  | call c k, f => call c fun b => (k b).bind f
  | loop body s k, f => loop body s fun b => (k b).bind f

instance : Monad (Prog C) where
  pure := ret
  bind := bind

/-- Issue one command. -/
def cmd (c : C β) : Prog C β := call c ret

/-- Run `body` from `s` until it answers `inr`. -/
def iter {σ : Type} (body : σ → Prog C (σ ⊕ β)) (s : σ) : Prog C β := loop body s ret

/-- Run `f` on the elements of a list, from the left, threading an accumulator. -/
def forFold {σ : Type} (f : σ → α → Prog C σ) : List α → σ → Prog C σ
  | [], s => ret s
  | a :: as, s => (f s a).bind (forFold f as)

/-- One round of a loop: go on or leave. -/
def unroll {σ : Type} (body : σ → Prog C (σ ⊕ β)) (s : σ) (k : β → Prog C α) : Prog C α :=
  (body s).bind fun
    | .inl s' => loop body s' k
    | .inr b => k b

@[simp] theorem pure_def (a : α) : (pure a : Prog C α) = ret a := rfl

@[simp] theorem bind_def (p : Prog C α) (f : α → Prog C β) : (p >>= f) = p.bind f := rfl

@[simp] theorem ret_bind (a : α) (f : α → Prog C β) : (ret a).bind f = f a := rfl

@[simp] theorem call_bind (c : C γ) (k : γ → Prog C α) (f : α → Prog C β) :
    (call c k).bind f = call c fun b => (k b).bind f := rfl

@[simp] theorem cmd_bind (c : C γ) (f : γ → Prog C β) : (cmd c).bind f = call c f := rfl

@[simp] theorem iter_bind {σ : Type} (body : σ → Prog C (σ ⊕ γ)) (s : σ) (f : γ → Prog C β) :
    (iter body s).bind f = loop body s f := rfl

theorem bind_assoc (p : Prog C α) (f : α → Prog C β) (g : β → Prog C γ) :
    (p.bind f).bind g = p.bind fun a => (f a).bind g := by
  induction p with
  | ret a => rfl
  | call c k ih => simp only [bind]; congr 1; funext b; exact ih b f
  | loop body s k _ ih => simp only [bind]; congr 1; funext b; exact ih b f

theorem bind_ret (p : Prog C α) : p.bind ret = p := by
  induction p with
  | ret a => rfl
  | call c k ih => simp only [bind]; congr 1; funext b; exact ih b
  | loop body s k _ ih => simp only [bind]; congr 1; funext b; exact ih b

theorem unroll_bind {σ : Type} (body : σ → Prog C (σ ⊕ γ)) (s : σ) (k : γ → Prog C α)
    (f : α → Prog C β) :
    (unroll body s k).bind f = unroll body s fun b => (k b).bind f := by
  rw [unroll, bind_assoc, unroll]
  congr 1
  funext x
  cases x <;> rfl

@[simp] theorem ite_bind (c : Prop) [Decidable c] (p q : Prog C α) (f : α → Prog C β) :
    (if c then p else q).bind f = if c then p.bind f else q.bind f := by
  split <;> rfl

end Prog

/-! ### Running a program -/

/-- What a command or a run ends in: a value, or a raised error; both keep the world. -/
inductive Outcome (E W α : Type) : Type
  | ok (a : α) (w : W)
  | raise (e : E) (w : W)

/-- A meaning for every command of `C` on the world `W`. -/
abbrev Handler (C : Type → Type) (E W : Type) : Type 1 :=
  (β : Type) → C β → W → Outcome E W β

section Exec

variable {C : Type → Type} {E W : Type} {α β γ : Type} (h : Handler C E W)

/-- Run with fuel; `none` only when the fuel is used up. -/
def exec : ℕ → Prog C α → W → Option (Outcome E W α)
  | 0, _, _ => none
  | _ + 1, .ret a, w => some (.ok a w)
  | n + 1, .call c k, w =>
    match h _ c w with
    | .ok b w' => exec n (k b) w'
    | .raise e w' => some (.raise e w')
  | n + 1, .loop body s k, w => exec n (Prog.unroll body s k) w

/-- `p` run from `w` returns, in a world and with a value that satisfy `Q`. -/
def Runs (p : Prog C α) (w : W) (Q : α → W → Prop) : Prop :=
  ∃ n a w', exec h n p w = some (.ok a w') ∧ Q a w'

variable {h}

theorem exec_mono {n m : ℕ} {p : Prog C α} {w : W} {o : Outcome E W α}
    (he : exec h n p w = some o) (hnm : n ≤ m) : exec h m p w = some o := by
  induction n generalizing m p w with
  | zero => simp [exec] at he
  | succ n ih =>
    obtain ⟨m, rfl⟩ : ∃ m', m = m' + 1 := ⟨m - 1, by omega⟩
    cases p with
    | ret a => simpa [exec] using he
    | call c k =>
      simp only [exec] at he ⊢
      split at he
      · exact ih he (by omega)
      · exact he
    | loop body s k => exact ih (p := Prog.unroll body s k) he (by omega)

/-- A run has one outcome, whatever the fuel. -/
theorem exec_det {n m : ℕ} {p : Prog C α} {w : W} {o o' : Outcome E W α}
    (h₁ : exec h n p w = some o) (h₂ : exec h m p w = some o') : o = o' := by
  have e₁ := exec_mono h₁ (Nat.le_max_left n m)
  have e₂ := exec_mono h₂ (Nat.le_max_right n m)
  exact Option.some.inj (e₁.symm.trans e₂)

theorem exec_bind {n m : ℕ} {p : Prog C α} {f : α → Prog C β} {w w' : W} {a : α}
    {o : Outcome E W β} (h₁ : exec h n p w = some (.ok a w')) (h₂ : exec h m (f a) w' = some o) :
    exec h (n + m) (p.bind f) w = some o := by
  induction n generalizing p w with
  | zero => simp [exec] at h₁
  | succ n ih =>
    cases p with
    | ret b =>
      simp only [exec, Option.some.injEq, Outcome.ok.injEq] at h₁
      obtain ⟨rfl, rfl⟩ := h₁
      exact exec_mono h₂ (by omega)
    | call c k =>
      rw [Nat.add_right_comm]
      simp only [exec, Prog.call_bind] at h₁ ⊢
      split at h₁
      · exact ih h₁
      · simp at h₁
    | loop body s k =>
      rw [Nat.add_right_comm]
      have h' : exec h n (Prog.unroll body s k) w = some (.ok a w') := h₁
      have := ih h'
      rwa [Prog.unroll_bind] at this

theorem Runs.mono {p : Prog C α} {w : W} {Q Q' : α → W → Prop} (hr : Runs h p w Q)
    (hQ : ∀ a w', Q a w' → Q' a w') : Runs h p w Q' := by
  obtain ⟨n, a, w', h₁, h₂⟩ := hr
  exact ⟨n, a, w', h₁, hQ a w' h₂⟩

theorem runs_ret {a : α} {w : W} {Q : α → W → Prop} (hQ : Q a w) : Runs h (.ret a) w Q :=
  ⟨1, a, w, rfl, hQ⟩

theorem runs_call {c : C γ} {k : γ → Prog C α} {w v : W} {b : γ} {Q : α → W → Prop}
    (hc : h _ c w = .ok b v) (hk : Runs h (k b) v Q) : Runs h (.call c k) w Q := by
  obtain ⟨n, a, w', h₁, hQ⟩ := hk
  exact ⟨n + 1, a, w', by simp only [exec, hc]; exact h₁, hQ⟩

theorem runs_bind {p : Prog C α} {f : α → Prog C β} {w : W} {Q : β → W → Prop}
    (hp : Runs h p w fun a w' => Runs h (f a) w' Q) : Runs h (p.bind f) w Q := by
  obtain ⟨n, a, w', h₁, m, b, w'', h₂, hQ⟩ := hp
  exact ⟨n + m, b, w'', exec_bind h₁ h₂, hQ⟩

theorem runs_unroll {σ : Type} {body : σ → Prog C (σ ⊕ γ)} {s : σ} {k : γ → Prog C α} {w : W}
    {Q : α → W → Prop} (hr : Runs h (Prog.unroll body s k) w Q) : Runs h (.loop body s k) w Q := by
  obtain ⟨n, a, w', h₁, hQ⟩ := hr
  exact ⟨n + 1, a, w', h₁, hQ⟩

/-- Loop rule: an invariant indexed by a measure that every further round decreases. -/
theorem runs_loop {σ : Type} {body : σ → Prog C (σ ⊕ γ)} {k : γ → Prog C α} {Q : α → W → Prop}
    (I : ℕ → σ → W → Prop)
    (hstep : ∀ n s w, I n s w → Runs h (body s) w fun r w' =>
      match r with
      | .inl s' => ∃ m < n, I m s' w'
      | .inr b => Runs h (k b) w' Q)
    {n : ℕ} {s : σ} {w : W} (hI : I n s w) : Runs h (.loop body s k) w Q := by
  induction n using Nat.strongRecOn generalizing s w with
  | ind n ih =>
    refine runs_unroll (runs_bind ((hstep n s w hI).mono ?_))
    rintro (s' | b) w' hr
    · obtain ⟨m, hm, hI'⟩ := hr
      exact ih m hm hI'
    · exact hr

/-- Fold rule: an invariant on what is left of the list. -/
theorem runs_forFold {σ : Type} {f : σ → γ → Prog C σ} (I : List γ → σ → W → Prop)
    (hstep : ∀ a as s w, I (a :: as) s w → Runs h (f s a) w fun s' w' => I as s' w')
    {as : List γ} {s : σ} {w : W} (hI : I as s w) :
    Runs h (Prog.forFold f as s) w fun s' w' => I [] s' w' := by
  induction as generalizing s w with
  | nil => exact runs_ret hI
  | cons a as ih => exact runs_bind ((hstep a as s w hI).mono fun s' w' h' => ih h')

/-- `p` run from `w` returns `a` in the world `w'`. -/
def Returns (h : Handler C E W) (p : Prog C α) (w : W) (a : α) (w' : W) : Prop :=
  ∃ n, exec h n p w = some (.ok a w')

theorem Returns.of_runs {p : Prog C α} {w w' : W} {a : α} {Q : α → W → Prop}
    (hr : Returns h p w a w') (hQ : Runs h p w Q) : Q a w' := by
  obtain ⟨n, h₁⟩ := hr
  obtain ⟨m, b, w'', h₂, hQ⟩ := hQ
  obtain ⟨rfl, rfl⟩ := by simpa using exec_det h₁ h₂
  exact hQ

theorem returns_ret (h : Handler C E W) (a : α) (w : W) : Returns h (.ret a) w a w := ⟨1, rfl⟩

theorem Returns.bind {p : Prog C α} {f : α → Prog C β} {w w₁ w' : W} {a : α} {b : β} (hp : Returns h p w a w₁)
    (hf : Returns h (f a) w₁ b w') : Returns h (p.bind f) w b w' := by
  obtain ⟨n, hn⟩ := hp
  obtain ⟨m, hm⟩ := hf
  exact ⟨n + m, exec_bind hn hm⟩

/-- A run returns where it ends. -/
theorem Runs.returning {p : Prog C α} {w : W} {Q : α → W → Prop} (hr : Runs h p w Q) :
    Runs h p w fun a w' => Q a w' ∧ Returns h p w a w' := by
  obtain ⟨n, a, w', he, hQ⟩ := hr
  exact ⟨n, a, w', he, hQ, n, he⟩

/-- What returns has returned from its first part. -/
theorem Returns.of_bind {p : Prog C α} {f : α → Prog C β} {w w' : W} {b : β} (hr : Returns h (p.bind f) w b w') :
    ∃ a w₁, Returns h p w a w₁ ∧ Returns h (f a) w₁ b w' := by
  obtain ⟨n, he⟩ := hr
  induction n generalizing p w with
  | zero => simp [exec] at he
  | succ n ih =>
    cases p with
    | ret a => exact ⟨a, w, ⟨1, rfl⟩, n + 1, he⟩
    | call c k =>
      simp only [exec, Prog.call_bind] at he
      split at he
      next b' v hc =>
        obtain ⟨a, w₁, ⟨m, hm⟩, hf⟩ := ih he
        exact ⟨a, w₁, ⟨m + 1, by simp only [exec, hc, hm]⟩, hf⟩
      next => cases he
    | loop body s k =>
      have he' : exec h n ((Prog.unroll body s k).bind f) w = some (.ok b w') := by
        rw [Prog.unroll_bind]
        exact he
      obtain ⟨a, w₁, ⟨m, hm⟩, hf⟩ := ih he'
      exact ⟨a, w₁, ⟨m + 1, hm⟩, hf⟩

/-- A handler under which every step is possible that is possible under `h` has the runs of `h`. -/
theorem Returns.weaken {h' : Handler C E W}
    (hh : ∀ (β : Type) (c : C β) (w : W) (b : β) (w₁ : W), h β c w = .ok b w₁ → h' β c w = .ok b w₁)
    {p : Prog C α} {w w' : W} {a : α} (hr : Returns h p w a w') : Returns h' p w a w' := by
  obtain ⟨n, he⟩ := hr
  refine ⟨n, ?_⟩
  induction n generalizing p w with
  | zero => simp [exec] at he
  | succ n ih =>
    cases p with
    | ret b => exact he
    | call c k =>
      simp only [exec] at he ⊢
      split at he
      next b w₁ hc =>
        rw [hh _ c w b w₁ hc]
        exact ih he
      next => simp at he
    | loop body s k => exact ih (p := Prog.unroll body s k) he

/-- With `n` steps of fuel the run returns, and `f` is true of what it ends in. -/
def execHolds (h : Handler C E W) (n : ℕ) (p : Prog C α) (w : W) (f : α → W → Bool) : Bool :=
  match exec h n p w with
  | some (.ok a w') => f a w'
  | _ => false

theorem runs_of_exec {n : ℕ} {p : Prog C α} {w : W} {f : α → W → Bool}
    (he : execHolds h n p w f = true) : Runs h p w fun a w' => f a w' = true := by
  unfold execHolds at he
  split at he
  next a w' hn => exact ⟨n, a, w', hn, he⟩
  next => simp at he

/-- `p` run from `w` raises `e`, in a world that satisfies `Q`. -/
def Raises (h : Handler C E W) (p : Prog C α) (w : W) (e : E) (Q : W → Prop) : Prop :=
  ∃ n w', exec h n p w = some (.raise e w') ∧ Q w'

/-- With `n` steps of fuel the run raises `e`. -/
def execRaises [DecidableEq E] (h : Handler C E W) (n : ℕ) (p : Prog C α) (w : W) (e : E) : Bool :=
  match exec h n p w with
  | some (.raise e' _) => e' = e
  | _ => false

theorem raises_of_exec [DecidableEq E] {n : ℕ} {p : Prog C α} {w : W} {e : E}
    (he : execRaises h n p w e = true) : Raises h p w e fun _ => True := by
  unfold execRaises at he
  split at he
  next e' w' hn => exact ⟨n, w', by rw [hn, of_decide_eq_true he], trivial⟩
  next => simp at he

theorem raises_call {c : C γ} {k : γ → Prog C α} {w w' : W} {e : E} {Q : W → Prop}
    (hc : h _ c w = .raise e w') (hQ : Q w') : Raises h (.call c k) w e Q :=
  ⟨1, w', by simp only [exec, hc], hQ⟩

theorem raises_call_ok {c : C γ} {k : γ → Prog C α} {w v : W} {b : γ} {e : E} {Q : W → Prop}
    (hc : h _ c w = .ok b v) (hk : Raises h (k b) v e Q) : Raises h (.call c k) w e Q := by
  obtain ⟨n, w', h₁, hQ⟩ := hk
  exact ⟨n + 1, w', by simp only [exec, hc]; exact h₁, hQ⟩

theorem raises_unroll {σ : Type} {body : σ → Prog C (σ ⊕ γ)} {s : σ} {k : γ → Prog C α} {w : W}
    {e : E} {Q : W → Prop} (hr : Raises h (Prog.unroll body s k) w e Q) :
    Raises h (.loop body s k) w e Q := by
  obtain ⟨n, w', h₁, hQ⟩ := hr
  exact ⟨n + 1, w', h₁, hQ⟩

/-- The rest of a block raises. -/
theorem Runs.raises_bind {p : Prog C α} {f : α → Prog C β} {w : W} {e : E} {Q : W → Prop}
    (hp : Runs h p w fun a w' => Raises h (f a) w' e Q) : Raises h (p.bind f) w e Q := by
  obtain ⟨n, a, w', h₁, m, w'', h₂, hQ⟩ := hp
  exact ⟨n + m, w'', exec_bind h₁ h₂, hQ⟩

theorem exec_bind_raise {n : ℕ} {p : Prog C α} {f : α → Prog C β} {w w' : W} {e : E}
    (h₁ : exec h n p w = some (.raise e w')) : exec h n (p.bind f) w = some (.raise e w') := by
  induction n generalizing p w with
  | zero => simp [exec] at h₁
  | succ n ih =>
    cases p with
    | ret b => simp [exec] at h₁
    | call c k =>
      simp only [exec, Prog.call_bind] at h₁ ⊢
      split at h₁
      · exact ih h₁
      · obtain ⟨rfl, rfl⟩ := by simpa using h₁
        rfl
    | loop body s k =>
      have := ih (p := Prog.unroll body s k) h₁
      rwa [Prog.unroll_bind] at this

/-- The first part of a block raises. -/
theorem Raises.bind {p : Prog C α} {f : α → Prog C β} {w : W} {e : E} {Q : W → Prop}
    (hp : Raises h p w e Q) : Raises h (p.bind f) w e Q := by
  obtain ⟨n, w', h₁, hQ⟩ := hp
  exact ⟨n, w', exec_bind_raise h₁, hQ⟩

/-- A run that raises does not return. -/
theorem Raises.not_runs {p : Prog C α} {w : W} {e : E} {Q : W → Prop} {P : α → W → Prop}
    (hp : Raises h p w e Q) : ¬ Runs h p w P := by
  rintro ⟨n, a, w', h₁, -⟩
  obtain ⟨m, w'', h₂, -⟩ := hp
  exact absurd (exec_det h₁ h₂) (by simp)

theorem Returns.not_raises {p : Prog C α} {w w' : W} {a : α} {e : E} {Q : W → Prop}
    (hr : Returns h p w a w') : ¬ Raises h p w e Q := by
  intro hraise
  obtain ⟨n, hn⟩ := hr
  exact hraise.not_runs (P := fun _ _ => True) ⟨n, a, w', hn, trivial⟩

theorem Raises.det {p : Prog C α} {w : W} {e e' : E} {Q Q' : W → Prop} (h₁ : Raises h p w e Q)
    (h₂ : Raises h p w e' Q') : e = e' ∧ ∃ w', Q w' ∧ Q' w' := by
  obtain ⟨n, w', e₁, q₁⟩ := h₁
  obtain ⟨m, w'', e₂, q₂⟩ := h₂
  obtain ⟨rfl, rfl⟩ := by simpa using exec_det e₁ e₂
  exact ⟨rfl, w', q₁, q₂⟩

theorem Runs.det {p : Prog C α} {w : W} {Q Q' : α → W → Prop} (h₁ : Runs h p w Q)
    (h₂ : Runs h p w Q') : Runs h p w fun a w' => Q a w' ∧ Q' a w' := by
  obtain ⟨n, a, w', e₁, q₁⟩ := h₁
  obtain ⟨m, b, w'', e₂, q₂⟩ := h₂
  obtain ⟨rfl, rfl⟩ := by simpa using exec_det e₁ e₂
  exact ⟨n, a, w', e₁, q₁, q₂⟩

end Exec

/-! ### Programs over other programs -/

/-- Replace every command of a program by a program over other commands. -/
def Prog.expand {C C' : Type → Type} (f : (β : Type) → C β → Prog C' β) {α : Type} :
    Prog C α → Prog C' α
  | .ret a => .ret a
  | .call c k => (f _ c).bind fun b => (k b).expand f
  | .loop body s k => .loop (fun s => (body s).expand f) s fun b => (k b).expand f

/-- Let `g` translate the commands one by one. -/
def Prog.lift {C C' : Type → Type} (g : (β : Type) → C β → C' β) {α : Type} :
    Prog C α → Prog C' α :=
  Prog.expand fun _ c => .cmd (g _ c)

section Expand

variable {C C' : Type → Type} {E E' W W' : Type} {α β γ : Type}

theorem Prog.expand_bind {f : (β : Type) → C β → Prog C' β} (p : Prog C α) (k : α → Prog C β) :
    (p.bind k).expand f = (p.expand f).bind fun a => (k a).expand f := by
  induction p with
  | ret a => rfl
  | call c q ih =>
    simp only [Prog.bind, Prog.expand, Prog.bind_assoc]
    congr 1
    funext b
    exact ih b k
  | loop body s q _ ih =>
    simp only [Prog.bind, Prog.expand]
    congr 1
    funext b
    exact ih b k

theorem Prog.expand_unroll {f : (β : Type) → C β → Prog C' β} {σ : Type}
    (body : σ → Prog C (σ ⊕ γ)) (s : σ) (k : γ → Prog C α) :
    (Prog.unroll body s k).expand f =
      Prog.unroll (fun s => (body s).expand f) s fun b => (k b).expand f := by
  rw [Prog.unroll, Prog.expand_bind, Prog.unroll]
  congr 1
  funext x
  cases x <;> rfl

/-- `p` run from `w` returns as `Q` says or raises an error that `T` tolerates. -/
def Ends (h : Handler C E W) (T : E → Prop) (p : Prog C α) (w : W) (Q : α → W → Prop) : Prop :=
  Runs h p w Q ∨ ∃ e, T e ∧ Raises h p w e fun _ => True

variable {h : Handler C E W} {h' : Handler C' E' W'} {T : E' → Prop}

theorem Ends.bind {p : Prog C' α} {k : α → Prog C' β} {v : W'} {Q : β → W' → Prop}
    (hp : Ends h' T p v fun a v' => Ends h' T (k a) v' Q) : Ends h' T (p.bind k) v Q := by
  rcases hp with ⟨n, a, v', hn, hk | ⟨e, hT, hr⟩⟩ | ⟨e, hT, hr⟩
  · exact .inl (runs_bind ⟨n, a, v', hn, hk⟩)
  · exact .inr ⟨e, hT, Runs.raises_bind ⟨n, a, v', hn, hr⟩⟩
  · exact .inr ⟨e, hT, hr.bind⟩

/-- No error is tolerated. -/
theorem Ends.runs {p : Prog C' α} {v : W'} {Q : α → W' → Prop} (hp : Ends h' T p v Q)
    (hT : ∀ e, ¬ T e) : Runs h' p v Q :=
  hp.resolve_right fun ⟨e, he, _⟩ => hT e he

/-- Simulation.  When each command that returns keeps `S` to its expansion, so does each program.
`G` may be any property of worlds that holds at the end and, once lost, stays lost. -/
theorem ends_expand {f : (β : Type) → C β → Prog C' β} {S : W → W' → Prop} {G : W → Prop}
    (hG : ∀ (β : Type) (c : C β) (w : W) (b : β) (w₁ : W), h β c w = .ok b w₁ → G w₁ → G w)
    (hS : ∀ (β : Type) (c : C β) (w : W) (v : W') (b : β) (w₁ : W), S w v → h β c w = .ok b w₁ →
      G w₁ → Ends h' T (f β c) v fun b' v₁ => b' = b ∧ S w₁ v₁)
    {n : ℕ} {p : Prog C α} {w : W} {v : W'} {a : α} {w₁ : W} (hw : S w v)
    (he : exec h n p w = some (.ok a w₁)) (hend : G w₁) :
    Ends h' T (p.expand f) v fun a' v₁ => a' = a ∧ S w₁ v₁ := by
  have hback : ∀ {n : ℕ} {p : Prog C α} {w : W}, exec h n p w = some (.ok a w₁) → G w := by
    intro n
    induction n with
    | zero => intro p w he; simp [exec] at he
    | succ n ih =>
      intro p w he
      cases p with
      | ret b =>
        obtain ⟨rfl, rfl⟩ := by simpa [exec] using he
        exact hend
      | call c k =>
        simp only [exec] at he
        split at he
        next b w' hc => exact hG _ c w b w' hc (ih he)
        next => simp at he
      | loop body s k => exact ih (p := Prog.unroll body s k) he
  induction n generalizing p w v with
  | zero => simp [exec] at he
  | succ n ih =>
    cases p with
    | ret b =>
      obtain ⟨rfl, rfl⟩ := by simpa [exec] using he
      exact .inl (runs_ret ⟨rfl, hw⟩)
    | call c k =>
      simp only [exec] at he
      split at he
      next b w' hc =>
        refine Ends.bind ?_
        rcases hS _ c w v b w' hw hc (hback he) with hr | hr
        · exact .inl (hr.mono fun b' v₁ ⟨e, hw'⟩ => e ▸ ih hw' he)
        · exact .inr hr
      next => simp at he
    | loop body s k =>
      have hr := ih (p := Prog.unroll body s k) hw he
      rw [Prog.expand_unroll] at hr
      rcases hr with hr | ⟨e, hT, hr⟩
      · exact .inl (runs_unroll hr)
      · exact .inr ⟨e, hT, raises_unroll hr⟩

/-- A translated program runs as the original does, on the part `put` of the world. -/
theorem runs_lift {g : (β : Type) → C β → C' β} {put : W → W'}
    (hok : ∀ (β : Type) (c : C β) (w : W) (b : β) (w₁ : W), h β c w = .ok b w₁ →
      h' β (g β c) (put w) = .ok b (put w₁))
    {p : Prog C α} {w : W} {Q : α → W → Prop} (hr : Runs h p w Q) :
    Runs h' (p.lift g) (put w) fun a v => ∃ w₁, v = put w₁ ∧ Q a w₁ := by
  obtain ⟨n, a, w₁, he, hQ⟩ := hr
  have hS : ∀ (β : Type) (c : C β) (w : W) (v : W') (b : β) (w₁ : W), v = put w →
      h β c w = .ok b w₁ → True → Ends h' (fun _ => False) (.cmd (g β c)) v
        fun b' v₁ => b' = b ∧ v₁ = put w₁ := by
    rintro β c w _ b w₁ rfl hc -
    exact .inl (runs_call (hok β c w b w₁ hc) (runs_ret ⟨rfl, rfl⟩))
  refine ((ends_expand (fun _ _ _ _ _ _ _ => trivial) hS rfl he trivial).runs fun _ => id).mono ?_
  rintro _ v ⟨rfl, rfl⟩
  exact ⟨w₁, rfl, hQ⟩

theorem raises_lift {g : (β : Type) → C β → C' β} {put : W → W'} {err : E → E'}
    (hok : ∀ (β : Type) (c : C β) (w : W) (b : β) (w₁ : W), h β c w = .ok b w₁ →
      h' β (g β c) (put w) = .ok b (put w₁))
    (hraise : ∀ (β : Type) (c : C β) (w : W) (e : E) (w₁ : W), h β c w = .raise e w₁ →
      h' β (g β c) (put w) = .raise (err e) (put w₁))
    {p : Prog C α} {w : W} {e : E} {Q : W → Prop} (hr : Raises h p w e Q) :
    Raises h' (p.lift g) (put w) (err e) fun v => ∃ w₁, v = put w₁ ∧ Q w₁ := by
  obtain ⟨n, w₁, he, hQ⟩ := hr
  induction n generalizing p w with
  | zero => simp [exec] at he
  | succ n ih =>
    cases p with
    | ret b => simp [exec] at he
    | call c k =>
      simp only [exec] at he
      split at he
      next b w' hc => exact raises_call_ok (hok _ c w b w' hc) (ih he)
      next e' w' hc =>
        obtain ⟨rfl, rfl⟩ := by simpa using he
        exact raises_call (hraise _ c w _ _ hc) ⟨_, rfl, hQ⟩
    | loop body s k =>
      have hr := ih (p := Prog.unroll body s k) he
      rw [Prog.lift, Prog.expand_unroll] at hr
      exact raises_unroll hr

end Expand

end BEpsilon
