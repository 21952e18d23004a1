import BEpsilon.Lib.Always

/-!
# BEpsilon.Lib.Pool — threads that run programs on one world

A `Pool` has a program for each thread and one world, and a `Step` is one command of one thread, so that a
run is an interleaving of the commands.  A thread whose program has returned, or whose command has raised an
error, goes on with another call.

`Views` is the rule for reasoning about each thread alone: a thread has a view of the world, its own commands
change world and view together, and what other threads do leaves its view true, provided that everyone issues
only commands that keep the guarantee.
-/

namespace BEpsilon

/-- Threads `T` on the world `W`: what each one is calling, and what is left of its program. -/
structure Pool (ι : Type) (C : Type → Type) (W T α : Type) : Type 1 where
  world : W
  op : T → ι
  rest : T → Prog C α

/-- The calls that threads make, what a call begins with, and what the commands of a thread do: their steps,
and those that may raise an error instead. -/
structure PoolRules (ι : Type) (C : Type → Type) (W T α : Type) : Type 1 where
  call : ι → Prog C α
  enter : ι → T → W → W
  step : T → Steps C W
  raises : T → (β : Type) → C β → W → Prop

namespace Pool

variable {ι : Type} {C : Type → Type} {W T S α : Type} [DecidableEq T] {R : PoolRules ι C W T α}

/-- The thread `t` leaves its program and begins the call `m`. -/
def begin (R : PoolRules ι C W T α) (s : Pool ι C W T α) (t : T) (m : ι) : Pool ι C W T α where
  world := R.enter m t s.world
  op := Function.update s.op t m
  rest := Function.update s.rest t (R.call m)

/-- One step of one thread. -/
inductive Step (R : PoolRules ι C W T α) : Pool ι C W T α → Pool ι C W T α → Prop
  | command {s : Pool ι C W T α} (t : T) {β : Type} {c : C β} {k : β → Prog C α} {b : β} {w : W}
      (hc : s.rest t = .call c k) (hs : R.step t β c s.world b w) :
      Step R s { s with world := w, rest := Function.update s.rest t (k b) }
  | round {s : Pool ι C W T α} (t : T) {σ β : Type} {body : σ → Prog C (σ ⊕ β)} {x : σ} {k : β → Prog C α}
      (hl : s.rest t = .loop body x k) :
      Step R s { s with rest := Function.update s.rest t (Prog.unroll body x k) }
  | next {s : Pool ι C W T α} (t : T) {a : α} (m : ι) (hr : s.rest t = .ret a) : Step R s (s.begin R t m)
  | failed {s : Pool ι C W T α} (t : T) {β : Type} {c : C β} {k : β → Prog C α} (m : ι)
      (hc : s.rest t = .call c k) (hr : R.raises t β c s.world) : Step R s (s.begin R t m)

/-- The pools that the threads can come to. -/
inductive Reachable (R : PoolRules ι C W T α) (s₀ : Pool ι C W T α) : Pool ι C W T α → Prop
  | start : Reachable R s₀ s₀
  | step {s s' : Pool ι C W T α} (hr : Reachable R s₀ s) (hs : Step R s s') : Reachable R s₀ s'

/-- A thread runs while the others wait. -/
theorem Reachable.run {s₀ s : Pool ι C W T α} (hr : Reachable R s₀ s) {t : T} {n : ℕ} {q : Prog C α} {w : W}
    (hrun : Comes (R.step t) n (s.rest t) s.world q w) :
    Reachable R s₀ { s with world := w, rest := Function.update s.rest t q } := by
  generalize hp : s.rest t = p at hrun
  generalize hw : s.world = v at hrun
  induction hrun generalizing s with
  | refl p w =>
    subst hp hw
    rwa [Function.update_eq_self]
  | call hs _ ih =>
    subst hw
    have h := ih (hr.step (.command t hp hs)) (Function.update_self _ _ _) rfl
    simpa using h
  | loop _ ih =>
    have h := ih (hr.step (.round t hp)) (Function.update_self _ _ _) hw
    simpa using h

/-- A view for each thread.  `view` says what a command does to the view of the thread that issues it, and `Φ`
is what every thread guarantees about the commands that it issues. -/
structure Views (R : PoolRules ι C W T α) (Inv : W → Prop) (Sees : T → W → S → Prop) (view : Steps C S)
    (Φ : (β : Type) → C β → S → Prop) (enter : ι → S → S) (Done : S → Prop) : Prop where
  own : ∀ {t β c w b w' v}, Inv w → Sees t w v → Φ β c v → R.step t β c w b w' →
    Inv w' ∧ ∃ v', view β c v b v' ∧ Sees t w' v'
  others : ∀ {t u β c w b w' v x}, u ≠ t → Inv w → Sees t w v → Φ β c v → R.step t β c w b w' →
    Sees u w x → Sees u w' x
  enter : ∀ {t m w v}, Inv w → Sees t w v → Inv (R.enter m t w) ∧ Sees t (R.enter m t w) (enter m v)
  enter_others : ∀ {t u m w v}, u ≠ t → Sees u w v → Sees u (R.enter m t w) v
  failed : ∀ {t β c w v}, Sees t w v → Φ β c v → R.raises t β c w → Done v

variable {Inv : W → Prop} {Sees : T → W → S → Prop} {view : Steps C S} {Φ : (β : Type) → C β → S → Prop}
  {enter : ι → S → S} {Done : S → Prop}

/-- What is true of a pool when each thread keeps its guarantee. -/
structure Kept (Inv : W → Prop) (Sees : T → W → S → Prop) (view : Steps C S)
    (Φ : (β : Type) → C β → S → Prop) (Done : S → Prop) (s : Pool ι C W T α) : Prop where
  inv : Inv s.world
  thread : ∀ t, ∃ v, Sees t s.world v ∧ Always view Φ (s.rest t) v fun _ v' => Done v'

omit [DecidableEq T] in
/-- What the thread that is about to issue a command guarantees about it. -/
theorem Kept.guarantee {s : Pool ι C W T α} (hs : Kept Inv Sees view Φ Done s) {t : T} {β : Type} {c : C β}
    {k : β → Prog C α} (hc : s.rest t = .call c k) : ∃ v, Sees t s.world v ∧ Φ β c v := by
  obtain ⟨v, hv, hrun⟩ := hs.thread t
  rw [hc] at hrun
  exact ⟨v, hv, hrun.of_call.1⟩

section Steps

variable (hV : Views R Inv Sees view Φ enter Done)
  (hcall : ∀ m v, Done v → Always view Φ (R.call m) (enter m v) fun _ v' => Done v')
include hV hcall

theorem Kept.begin {s : Pool ι C W T α} (hs : Kept Inv Sees view Φ Done s) {t : T} {v : S}
    (hv : Sees t s.world v) (hdone : Done v) (m : ι) : Kept Inv Sees view Φ Done (s.begin R t m) := by
  obtain ⟨hinv, hsees⟩ := hV.enter (m := m) hs.inv hv
  refine ⟨hinv, ?_⟩
  intro u
  by_cases hu : u = t
  · subst hu
    refine ⟨enter m v, hsees, ?_⟩
    simp only [Pool.begin, Function.update_self]
    exact hcall m v hdone
  · obtain ⟨x, hx, hrun⟩ := hs.thread u
    refine ⟨x, hV.enter_others hu hx, ?_⟩
    simp only [Pool.begin, Function.update_of_ne hu]
    exact hrun

theorem Kept.step {s s' : Pool ι C W T α} (hs : Kept Inv Sees view Φ Done s) (h : Step R s s') :
    Kept Inv Sees view Φ Done s' := by
  cases h with
  | command t hc hstep =>
    obtain ⟨v, hv, hrun⟩ := hs.thread t
    rw [hc] at hrun
    obtain ⟨hΦ, hrest⟩ := hrun.of_call
    obtain ⟨hinv, v', hview, hv'⟩ := hV.own hs.inv hv hΦ hstep
    refine ⟨hinv, ?_⟩
    intro u
    by_cases hu : u = t
    · subst hu
      refine ⟨v', hv', ?_⟩
      simp only [Function.update_self]
      exact hrest _ v' hview
    · obtain ⟨x, hx, hrun⟩ := hs.thread u
      refine ⟨x, hV.others hu hs.inv hv hΦ hstep hx, ?_⟩
      simp only [Function.update_of_ne hu]
      exact hrun
  | round t hl =>
    refine ⟨hs.inv, ?_⟩
    intro u
    obtain ⟨v, hv, hrun⟩ := hs.thread u
    refine ⟨v, hv, ?_⟩
    by_cases hu : u = t
    · subst hu
      rw [hl] at hrun
      simp only [Function.update_self]
      exact hrun.of_loop
    · simp only [Function.update_of_ne hu]
      exact hrun
  | next t m hr =>
    obtain ⟨v, hv, hrun⟩ := hs.thread t
    rw [hr] at hrun
    exact hs.begin hV hcall hv ((hrun 0 _ v (.refl _ _)).2 _ rfl) m
  | failed t m hc hr =>
    obtain ⟨v, hv, hΦ⟩ := hs.guarantee hc
    exact hs.begin hV hcall hv (hV.failed hv hΦ hr) m

/-- In every pool that the threads come to, the invariant holds and each thread keeps its guarantee. -/
theorem Kept.reachable {s₀ s : Pool ι C W T α} (hs₀ : Kept Inv Sees view Φ Done s₀) (hr : Reachable R s₀ s) :
    Kept Inv Sees view Φ Done s := by
  induction hr with
  | start => exact hs₀
  | step _ hs ih => exact ih.step hV hcall hs

end Steps

end Pool

end BEpsilon
