import BEpsilon.Lib.Prog

/-!
# BEpsilon.Lib.Always — what holds of every command that a program issues

`Steps` says which answers a command may have, so that a program has many runs: the steps may be those of
a handler, or of a world that others change as well.  `Always step Φ p w Q` says that on every run of `p`
from `w` each command is issued in a world of which `Φ` is true, and that the run ends, if it ends, as `Q`
says.  The rules need no measure, since nothing is said about whether a run ends.
-/

namespace BEpsilon

/-- `step c w b w'`: the command `c`, issued in `w`, may answer `b` and leave `w'`. -/
abbrev Steps (C : Type → Type) (W : Type) : Type 1 := (β : Type) → C β → W → β → W → Prop

/-- The steps of a handler. -/
def Handler.steps {C : Type → Type} {E W : Type} (h : Handler C E W) : Steps C W :=
  fun β c w b w' => h β c w = .ok b w'

/-- After `n` steps a run of the first program has come to the second one. -/
inductive Comes {C : Type → Type} {W : Type} (step : Steps C W) {α : Type} :
    ℕ → Prog C α → W → Prog C α → W → Prop
  | refl (p : Prog C α) (w : W) : Comes step 0 p w p w
  | call {n : ℕ} {β : Type} {c : C β} {k : β → Prog C α} {w w' : W} {b : β} {q : Prog C α} {v : W}
      (hs : step β c w b w') (hr : Comes step n (k b) w' q v) : Comes step (n + 1) (.call c k) w q v
  | loop {n : ℕ} {σ β : Type} {body : σ → Prog C (σ ⊕ β)} {s : σ} {k : β → Prog C α} {w : W}
      {q : Prog C α} {v : W} (hr : Comes step n (Prog.unroll body s k) w q v) :
      Comes step (n + 1) (.loop body s k) w q v

/-- Each command of each run is issued where `Φ` is true, and what the run ends in satisfies `Q`. -/
def Always {C : Type → Type} {W α : Type} (step : Steps C W) (Φ : (β : Type) → C β → W → Prop)
    (p : Prog C α) (w : W) (Q : α → W → Prop) : Prop :=
  ∀ n q v, Comes step n p w q v → (∀ β (c : C β) k, q = .call c k → Φ β c v) ∧ ∀ a, q = .ret a → Q a v

variable {C : Type → Type} {W α β γ : Type} {step : Steps C W} {Φ : (β : Type) → C β → W → Prop}
  {p : Prog C α} {w v : W} {Q Q' : α → W → Prop}

/-- A run of two programs one after the other is in the first one, or it has got through it. -/
theorem Comes.of_bind {n : ℕ} {f : α → Prog C β} {q : Prog C β} (hr : Comes step n (p.bind f) w q v) :
    (∃ p', Comes step n p w p' v ∧ q = p'.bind f) ∨
      ∃ m ≤ n, ∃ i a w', Comes step i p w (.ret a) w' ∧ Comes step m (f a) w' q v := by
  induction n generalizing p w with
  | zero =>
    cases hr
    exact .inl ⟨p, .refl _ _, rfl⟩
  | succ n ih =>
    cases p with
    | ret a => exact .inr ⟨n + 1, Nat.le_refl _, 0, a, w, .refl _ _, hr⟩
    | call c k =>
      cases hr with
      | call hs hr =>
        rcases ih hr with ⟨p', hp, hq⟩ | ⟨m, hm, i, a, w', hp, hf⟩
        · exact .inl ⟨p', .call hs hp, hq⟩
        · exact .inr ⟨m, by omega, i + 1, a, w', .call hs hp, hf⟩
    | loop body s k =>
      cases hr with
      | loop hr =>
        rw [← Prog.unroll_bind] at hr
        rcases ih hr with ⟨p', hp, hq⟩ | ⟨m, hm, i, a, w', hp, hf⟩
        · exact .inl ⟨p', .loop hp, hq⟩
        · exact .inr ⟨m, by omega, i + 1, a, w', .loop hp, hf⟩

theorem Always.mono (hp : Always step Φ p w Q) (hQ : ∀ a w', Q a w' → Q' a w') : Always step Φ p w Q' := by
  intro n q v hr
  obtain ⟨hc, ha⟩ := hp n q v hr
  exact ⟨hc, fun a e => hQ a v (ha a e)⟩

theorem always_ret {a : α} (hQ : Q a w) : Always step Φ (.ret a) w Q := by
  intro n q v hr
  cases hr
  refine ⟨?_, ?_⟩
  · intro β c k e
    cases e
  · intro b e
    cases e
    exact hQ

theorem always_call {c : C γ} {k : γ → Prog C α} (hc : Φ γ c w)
    (hk : ∀ b w', step γ c w b w' → Always step Φ (k b) w' Q) : Always step Φ (.call c k) w Q := by
  intro n q v hr
  cases hr with
  | refl =>
    refine ⟨?_, ?_⟩
    · intro β c' k' e
      cases e
      exact hc
    · intro a e
      cases e
  | call hs hr => exact hk _ _ hs _ _ _ hr

theorem always_bind {f : α → Prog C β} {Q : β → W → Prop}
    (hp : Always step Φ p w fun a w' => Always step Φ (f a) w' Q) : Always step Φ (p.bind f) w Q := by
  intro n q v hr
  rcases hr.of_bind with ⟨p', hp', rfl⟩ | ⟨m, -, i, a, w', hp', hf⟩
  · obtain ⟨hc, ha⟩ := hp _ _ _ hp'
    cases p' with
    | ret a => exact ha a rfl 0 _ v (.refl _ _)
    | call c k =>
      refine ⟨?_, ?_⟩
      · intro β' c' k' e
        cases e
        exact hc _ c k rfl
      · intro a e
        cases e
    | loop body s k =>
      refine ⟨?_, ?_⟩
      · intro β' c' k' e
        cases e
      · intro a e
        cases e
  · exact (hp _ _ _ hp').2 a rfl m q v hf

/-- Loop rule: an invariant on the state of the loop. -/
theorem always_loop {σ : Type} {body : σ → Prog C (σ ⊕ γ)} {k : γ → Prog C α} (I : σ → W → Prop)
    (hstep : ∀ s w, I s w → Always step Φ (body s) w fun r w' =>
      match r with
      | .inl s' => I s' w'
      | .inr b => Always step Φ (k b) w' Q)
    {s : σ} (hI : I s w) : Always step Φ (.loop body s k) w Q := by
  intro n
  induction n using Nat.strongRecOn generalizing s w with
  | ind n ih =>
    intro q v hr
    cases hr with
    | refl =>
      refine ⟨?_, ?_⟩
      · intro β c k' e
        cases e
      · intro a e
        cases e
    | @loop m _ _ _ _ _ _ _ _ hr =>
      -- one round, and then the rest of the run is shorter
      have hround : ∀ i r w', Comes step i (body s) w (.ret r) w' → ∀ j ≤ m, ∀ q v,
          Comes step j (match r with
            | .inl s' => .loop body s' k
            | .inr b => k b) w' q v →
          (∀ β (c : C β) k, q = .call c k → Φ β c v) ∧ ∀ a, q = .ret a → Q a v := by
        intro i r w' hb j hj q v hr
        have hI' := (hstep s w hI _ _ _ hb).2 r rfl
        cases r with
        | inl s' => exact ih j (by omega) hI' q v hr
        | inr b => exact hI' j q v hr
      rcases Comes.of_bind hr with ⟨p', hp', rfl⟩ | ⟨j, hj, i, r, w', hb, hr⟩
      · cases p' with
        | ret r => exact hround _ r v hp' 0 (Nat.zero_le m) _ v (.refl _ _)
        | call c k' =>
          refine ⟨?_, ?_⟩
          · intro β' c' k'' e
            cases e
            exact (hstep s w hI _ _ _ hp').1 _ c k' rfl
          · intro a e
            cases e
        | loop body' s' k' =>
          refine ⟨?_, ?_⟩
          · intro β' c' k'' e
            cases e
          · intro a e
            cases e
      · exact hround i r w' hb j hj q v hr

/-- Fold rule: an invariant on what is left of the list. -/
theorem always_forFold {σ : Type} {f : σ → γ → Prog C σ} (I : List γ → σ → W → Prop)
    (hstep : ∀ a as s w, I (a :: as) s w → Always step Φ (f s a) w fun s' w' => I as s' w')
    {as : List γ} {s : σ} (hI : I as s w) :
    Always step Φ (Prog.forFold f as s) w fun s' w' => I [] s' w' := by
  induction as generalizing s w with
  | nil => exact always_ret hI
  | cons a as ih => exact always_bind ((hstep a as s w hI).mono fun s' w' h' => ih h')

/-- A run that got through one command. -/
theorem Always.of_call {c : C γ} {k : γ → Prog C α} (hp : Always step Φ (.call c k) w Q) :
    Φ γ c w ∧ ∀ b w', step γ c w b w' → Always step Φ (k b) w' Q := by
  refine ⟨(hp 0 _ w (.refl _ _)).1 γ c k rfl, ?_⟩
  intro b w' hs n q v hr
  exact hp (n + 1) q v (.call hs hr)

theorem Always.of_loop {σ : Type} {body : σ → Prog C (σ ⊕ γ)} {s : σ} {k : γ → Prog C α}
    (hp : Always step Φ (.loop body s k) w Q) : Always step Φ (Prog.unroll body s k) w Q := by
  intro n q v hr
  exact hp (n + 1) q v (.loop hr)

/-- A run of a program whose commands are translated one by one. -/
theorem Comes.of_lift {C' : Type → Type} {g : (β : Type) → C' β → C β} {p' : Prog C' α} {n : ℕ} {q : Prog C α}
    (hr : Comes step n (p'.lift g) w q v) : ∃ q', q = q'.lift g ∧ Comes (fun β c => step β (g β c)) n p' w q' v := by
  generalize hp : p'.lift g = p at hr
  induction hr generalizing p' with
  | refl p w => exact ⟨p', hp.symm, .refl _ _⟩
  | call hs hr ih =>
    cases p' with
    | ret a => cases hp
    | call c k =>
      cases hp
      obtain ⟨q', hq, hr'⟩ := ih rfl
      exact ⟨q', hq, .call hs hr'⟩
    | loop body s k => cases hp
  | loop hr ih =>
    cases p' with
    | ret a => cases hp
    | call c k => cases hp
    | loop body' x k' =>
      cases hp
      obtain ⟨q', hq, hr'⟩ := ih (Prog.expand_unroll body' _ k')
      exact ⟨q', hq, .loop hr'⟩

theorem Always.lift {C' : Type → Type} {g : (β : Type) → C' β → C β} {p : Prog C' α}
    (hp : Always (fun β c => step β (g β c)) (fun β c => Φ β (g β c)) p w Q) : Always step Φ (p.lift g) w Q := by
  intro n q v hr
  obtain ⟨q', rfl, hr'⟩ := hr.of_lift
  obtain ⟨hc, ha⟩ := hp n q' v hr'
  cases q' with
  | ret a =>
    refine ⟨fun β c k e => ?_, fun b e => ?_⟩
    · cases e
    · cases e
      exact ha a rfl
  | call c' k' =>
    refine ⟨fun β c k e => ?_, fun b e => ?_⟩
    · cases e
      exact hc _ c' k' rfl
    · cases e
  | loop body s k' =>
    refine ⟨fun β c k e => ?_, fun b e => ?_⟩
    · cases e
    · cases e

/-- What each command that is issued keeps holds wherever a run comes to. -/
theorem Always.holds {J : W → Prop} (hp : Always step Φ p w Q)
    (hJ : ∀ (β : Type) (c : C β) (w : W) (b : β) (w' : W), J w → Φ β c w → step β c w b w' → J w') (hw : J w)
    {n : ℕ} {q : Prog C α} (hr : Comes step n p w q v) : J v := by
  induction hr with
  | refl p w => exact hw
  | call hs _ ih =>
    obtain ⟨hc, hk⟩ := hp.of_call
    exact ih (hk _ _ hs) (hJ _ _ _ _ _ hw hc hs)
  | loop _ ih => exact ih hp.of_loop hw

/-- What each command that is issued keeps, each run keeps. -/
theorem Always.keeps {J : W → Prop} (hp : Always step Φ p w Q)
    (hJ : ∀ (β : Type) (c : C β) (w : W) (b : β) (w' : W), J w → Φ β c w → step β c w b w' → J w') (hw : J w) :
    Always step Φ p w fun a w' => Q a w' ∧ J w' := by
  intro n q v hr
  obtain ⟨hc, ha⟩ := hp n q v hr
  exact ⟨hc, fun a e => ⟨ha a e, hp.holds hJ hw hr⟩⟩

section Handlers

variable {E : Type} {h : Handler C E W}

theorem Comes.returns {n : ℕ} {a : α} (hr : Comes h.steps n p w (.ret a) v) : Returns h p w a v := by
  generalize hq : (Prog.ret a : Prog C α) = q at hr
  induction hr with
  | refl p w =>
    subst hq
    exact ⟨1, rfl⟩
  | call hs _ ih =>
    obtain ⟨m, hm⟩ := ih hq
    refine ⟨m + 1, ?_⟩
    simp only [exec]
    rw [show h _ _ _ = _ from hs]
    exact hm
  | loop _ ih =>
    obtain ⟨m, hm⟩ := ih hq
    exact ⟨m + 1, hm⟩

theorem Returns.comes {a : α} (hr : Returns h p w a v) : ∃ n, Comes h.steps n p w (.ret a) v := by
  obtain ⟨n, he⟩ := hr
  induction n generalizing p w with
  | zero => simp [exec] at he
  | succ n ih =>
    cases p with
    | ret b =>
      obtain ⟨rfl, rfl⟩ := by simpa [exec] using he
      exact ⟨0, .refl _ _⟩
    | call c k =>
      simp only [exec] at he
      split at he
      next b w₁ hc =>
        obtain ⟨m, hm⟩ := ih he
        exact ⟨m + 1, .call hc hm⟩
      next => simp at he
    | loop body s k =>
      obtain ⟨m, hm⟩ := ih (p := Prog.unroll body s k) he
      exact ⟨m + 1, .loop hm⟩

/-- What a run of a handler returns. -/
theorem Always.of_returns {a : α} {w' : W} (hp : Always h.steps Φ p w Q) (hr : Returns h p w a w') : Q a w' := by
  obtain ⟨n, hn⟩ := hr.comes
  exact (hp n _ w' hn).2 a rfl

/-- A run that raises has come to a command that raises. -/
theorem Raises.comes {e : E} {P : W → Prop} (hr : Raises h p w e P) :
    ∃ n β, ∃ c : C β, ∃ k v w', Comes h.steps n p w (.call c k) v ∧ h β c v = .raise e w' ∧ P w' := by
  obtain ⟨n, w', he, hP⟩ := hr
  induction n generalizing p w with
  | zero => simp [exec] at he
  | succ n ih =>
    cases p with
    | ret b => simp [exec] at he
    | call c k =>
      simp only [exec] at he
      split at he
      next b w₁ hc =>
        obtain ⟨m, β, c', k', v, w'', hm, hraise⟩ := ih he
        exact ⟨m + 1, β, c', k', v, w'', .call hc hm, hraise⟩
      next e' w₁ hc =>
        obtain ⟨rfl, rfl⟩ := by simpa using he
        exact ⟨0, _, c, k, w, _, .refl _ _, hc, hP⟩
    | loop body s k =>
      obtain ⟨m, β, c', k', v, w'', hm, hraise⟩ := ih (p := Prog.unroll body s k) he
      exact ⟨m + 1, β, c', k', v, w'', .loop hm, hraise⟩

/-- The steps of commands that are programs over other commands. -/
def expanded {C' : Type → Type} (h : Handler C' E W) (f : (β : Type) → C β → Prog C' β) : Steps C W :=
  fun β c w b w' => Returns h (f β c) w b w'

/-- A run of an expanded program is a run of the program. -/
theorem Comes.of_expand {C' : Type → Type} {h : Handler C' E W} {f : (β : Type) → C β → Prog C' β} {n : ℕ} {a : α}
    (hr : Comes h.steps n (p.expand f) w (.ret a) v) : ∃ m, Comes (expanded h f) m p w (.ret a) v := by
  induction n using Nat.strongRecOn generalizing p w with
  | ind n ihn =>
    induction p generalizing n w with
    | ret b =>
      obtain ⟨rfl, rfl⟩ : b = a ∧ w = v := by
        cases hr
        exact ⟨rfl, rfl⟩
      exact ⟨0, .refl _ _⟩
    | call c k ih =>
      have hrest : ∀ j ≤ n, ∀ b w', Returns h (f _ c) w b w' → Comes h.steps j ((k b).expand f) w' (.ret a) v →
          ∃ m, Comes (expanded h f) m (.call c k) w (.ret a) v := by
        intro j hj b w' hb hk
        obtain ⟨m, hm⟩ := ih b j (fun i hi => ihn i (by omega)) hk
        exact ⟨m + 1, .call hb hm⟩
      rcases Comes.of_bind hr with ⟨p', hp', he⟩ | ⟨j, hj, i, b, w', hb, hk⟩
      · cases p' with
        | ret b =>
          refine hrest 0 (Nat.zero_le n) b v hp'.returns ?_
          rw [Prog.ret_bind] at he
          rw [← he]
          exact .refl _ _
        | call c' k' => cases he
        | loop body s k' => cases he
      · exact hrest j hj b w' hb.returns hk
    | loop body s k _ _ =>
      cases hr with
      | @loop m _ _ _ _ _ _ _ _ hr =>
        rw [← Prog.expand_unroll] at hr
        obtain ⟨m, hm⟩ := ihn m (by omega) hr
        exact ⟨m + 1, .loop hm⟩

/-- Simulation of a run that raises.  When each command that returns keeps `S` to its expansion and the
expansion of the one that raises `e` raises `e'`, so does the expanded program. -/
theorem Always.raises_expand {C' : Type → Type} {E' W' : Type} {h' : Handler C' E' W'}
    {f : (β : Type) → C β → Prog C' β} {S : W → W' → Prop} {G P : W → Prop} {e : E} {e' : E'} {Q' : W' → Prop}
    (hG : ∀ (β : Type) (c : C β) (w : W) (b : β) (w₁ : W), h β c w = .ok b w₁ → G w₁ → G w)
    (hlast : ∀ (β : Type) (c : C β) (w w₁ : W), Φ β c w → h β c w = .raise e w₁ → G w)
    (hS : ∀ (β : Type) (c : C β) (w : W) (v : W') (b : β) (w₁ : W), S w v → h β c w = .ok b w₁ →
      G w₁ → Runs h' (f β c) v fun b' v₁ => b' = b ∧ S w₁ v₁)
    (hraise : ∀ (β : Type) (c : C β) (w : W) (v : W') (w₁ : W), S w v → Φ β c w → h β c w = .raise e w₁ → P w₁ →
      Raises h' (f β c) v e' Q')
    {v : W'} (hw : S w v) (hp : Always h.steps Φ p w Q) (hr : Raises h p w e P) :
    Raises h' (p.expand f) v e' Q' := by
  obtain ⟨n, w₁, he, hP⟩ := hr
  have hback : ∀ {n : ℕ} {p : Prog C α} {w : W}, Always h.steps Φ p w Q → exec h n p w = some (.raise e w₁) → G w := by
    intro n
    induction n with
    | zero => intro p w hp he; simp [exec] at he
    | succ n ih =>
      intro p w hp he
      cases p with
      | ret b => simp [exec] at he
      | call c k =>
        simp only [exec] at he
        split at he
        next b w' hc => exact hG _ c w b w' hc (ih (hp.of_call.2 b w' hc) he)
        next e₀ w' hc =>
          obtain ⟨rfl, rfl⟩ := by simpa using he
          exact hlast _ c w _ hp.of_call.1 hc
      | loop body s k => exact ih (p := Prog.unroll body s k) hp.of_loop he
  induction n generalizing p w v with
  | zero => simp [exec] at he
  | succ n ih =>
    cases p with
    | ret b => simp [exec] at he
    | call c k =>
      simp only [exec] at he
      split at he
      next b w' hc =>
        have hk := hp.of_call.2 b w' hc
        refine Runs.raises_bind ((hS _ c w v b w' hw hc (hback hk he)).mono ?_)
        rintro b' v₁ ⟨rfl, hw'⟩
        exact ih hw' hk he
      next e₀ w' hc =>
        obtain ⟨rfl, rfl⟩ := by simpa using he
        exact Raises.bind (hraise _ c w v _ hw hp.of_call.1 hc hP)
    | loop body s k =>
      have hr := ih (p := Prog.unroll body s k) hw hp.of_loop he
      rw [Prog.expand_unroll] at hr
      exact raises_unroll hr

end Handlers

end BEpsilon
