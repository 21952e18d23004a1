import BEpsilon.Lib.Always
import BEpsilon.Lib.Prog

/-!
# BEpsilon.Lib.Refine — one handler in place of another

A program that is run on the one handler runs alike on another one that can follow it, command by command, where
the commands are issued as `Φ` says.
-/

namespace BEpsilon

section Ends

variable {C : Type → Type} {E W α : Type} {h : Handler C E W} {T : E → Prop} {p : Prog C α} {w : W}
  {Q P : α → W → Prop}

/-- What a run that ends comes to, together with what holds of every command on the way. -/
theorem Always.ends {Φ : (β : Type) → C β → W → Prop} (ha : Always h.steps Φ p w P) (he : Ends h T p w Q) :
    Always h.steps Φ p w fun a w' => P a w' ∧ Q a w' := by
  intro n q v hr
  obtain ⟨hc, hp⟩ := ha n q v hr
  refine ⟨hc, ?_⟩
  rintro a rfl
  refine ⟨hp a rfl, ?_⟩
  have hret := Comes.returns hr
  rcases he with he | ⟨e, -, hraise⟩
  · exact hret.of_runs he
  · exact absurd hraise hret.not_raises

end Ends

/-! ### The same program on another handler -/

section Refine

variable {C : Type → Type} {E E' W W' α : Type} {h : Handler C E W} {h' : Handler C E' W'}
  {Φ : (β : Type) → C β → W → Prop} {Sim : W → W' → Prop} {T : E → Prop} {T' : E' → Prop}

/-- The second handler follows the first one, where `Φ` holds of the command. -/
structure Follows (h : Handler C E W) (h' : Handler C E' W') (Φ : (β : Type) → C β → W → Prop)
    (T : E → Prop) (T' : E' → Prop) (Sim : W → W' → Prop) : Prop where
  ok : ∀ {β : Type} (c : C β) (w : W) (v : W') (b : β) (w₁ : W), Sim w v → Φ β c w →
    h β c w = .ok b w₁ → ∃ v₁, h' β c v = .ok b v₁ ∧ Sim w₁ v₁
  raise : ∀ {β : Type} (c : C β) (w : W) (v : W') (e : E) (w₁ : W), Sim w v → T e → h β c w = .raise e w₁ →
    ∃ e' v₁, T' e' ∧ h' β c v = .raise e' v₁

variable {p : Prog C α} {w : W} {v : W'} {P Q : α → W → Prop}

theorem Follows.runs (hF : Follows h h' Φ T T' Sim) (hw : Sim w v) (hp : Always h.steps Φ p w P)
    (hr : Runs h p w Q) : Runs h' p v fun a v₁ => ∃ w₁, Sim w₁ v₁ ∧ P a w₁ ∧ Q a w₁ := by
  obtain ⟨n, a, w₁, he, hQ⟩ := hr
  induction n generalizing p w v with
  | zero => simp [exec] at he
  | succ n ih =>
    cases p with
    | ret b =>
      obtain ⟨rfl, rfl⟩ := by simpa [exec] using he
      exact runs_ret ⟨_, hw, hp.of_returns ⟨1, rfl⟩, hQ⟩
    | call c k =>
      simp only [exec] at he
      split at he
      next b w' hc =>
        obtain ⟨hΦ, hk⟩ := hp.of_call
        obtain ⟨v', hc', hw'⟩ := hF.ok c w v b w' hw hΦ hc
        exact runs_call hc' (ih hw' (hk b w' hc) he)
      next => simp at he
    | loop body s k => exact runs_unroll (ih (p := Prog.unroll body s k) hw hp.of_loop he)

theorem Follows.raises (hF : Follows h h' Φ T T' Sim) (hw : Sim w v) (hp : Always h.steps Φ p w P) {e : E}
    (hT : T e) (hr : Raises h p w e fun _ => True) : ∃ e', T' e' ∧ Raises h' p v e' fun _ => True := by
  obtain ⟨n, w₁, he, -⟩ := hr
  induction n generalizing p w v with
  | zero => simp [exec] at he
  | succ n ih =>
    cases p with
    | ret b => simp [exec] at he
    | call c k =>
      simp only [exec] at he
      split at he
      next b w' hc =>
        obtain ⟨hΦ, hk⟩ := hp.of_call
        obtain ⟨v', hc', hw'⟩ := hF.ok c w v b w' hw hΦ hc
        obtain ⟨e', hT', hraise⟩ := ih hw' (hk b w' hc) he
        exact ⟨e', hT', raises_call_ok hc' hraise⟩
      next e₀ w' hc =>
        obtain ⟨rfl, rfl⟩ := by simpa using he
        obtain ⟨e', v₁, hT', hc'⟩ := hF.raise c w v _ _ hw hT hc
        exact ⟨e', hT', raises_call hc' trivial⟩
    | loop body s k =>
      obtain ⟨e', hT', hraise⟩ := ih (p := Prog.unroll body s k) hw hp.of_loop he
      exact ⟨e', hT', raises_unroll hraise⟩

/-- A program on the handler that follows. -/
theorem Follows.ends (hF : Follows h h' Φ T T' Sim) (hw : Sim w v) (hp : Always h.steps Φ p w P)
    (he : Ends h T p w Q) : Ends h' T' p v fun a v₁ => ∃ w₁, Sim w₁ v₁ ∧ P a w₁ ∧ Q a w₁ := by
  rcases he with hr | ⟨e, hT, hr⟩
  · exact .inl (hF.runs hw hp hr)
  · exact .inr (hF.raises hw hp hT hr)

end Refine

/-! ### Commands that are programs -/

section Expand

variable {C C' : Type → Type} {E E' W W' α : Type} {h : Handler C E W} {h' : Handler C' E' W'}
  {Φ : (β : Type) → C' β → W' → Prop}

theorem always_unroll {step : Steps C W} {Φ : (β : Type) → C β → W → Prop} {σ β : Type}
    {body : σ → Prog C (σ ⊕ β)} {s : σ} {k : β → Prog C α} {w : W} {Q : α → W → Prop}
    (hp : Always step Φ (Prog.unroll body s k) w Q) : Always step Φ (.loop body s k) w Q := by
  intro n q v hr
  cases hr with
  | refl =>
    refine ⟨?_, ?_⟩
    · intro β' c k' e
      cases e
    · intro a e
      cases e
  | loop hr => exact hp _ q v hr

/-- A property that stays lost once it is lost, and holds in the end, held in the beginning. -/
theorem exec_back {G : W → Prop}
    (hG : ∀ (β : Type) (c : C β) (w : W) (b : β) (w₁ : W), h β c w = .ok b w₁ → G w₁ → G w)
    {n : ℕ} {p : Prog C α} {w w₁ : W} {a : α} (he : exec h n p w = some (.ok a w₁)) (hend : G w₁) : G w := by
  induction n generalizing p w with
  | zero => simp [exec] at he
  | succ n ih =>
    cases p with
    | ret b =>
      obtain ⟨rfl, rfl⟩ := by simpa [exec] using he
      exact hend
    | call c k =>
      simp only [exec] at he
      split at he
      next b w' hc => exact hG _ c w b w' hc (ih he)
      next => simp at he
    | loop body s k => exact ih (p := Prog.unroll body s k) he

/-- When each command that returns keeps `S` to its expansion, in all of which `Φ` holds, so does each program. -/
theorem always_expand {f : (β : Type) → C β → Prog C' β} {S : W → W' → Prop} {G : W → Prop}
    (hG : ∀ (β : Type) (c : C β) (w : W) (b : β) (w₁ : W), h β c w = .ok b w₁ → G w₁ → G w)
    (hS : ∀ (β : Type) (c : C β) (w : W) (v : W') (b : β) (w₁ : W), S w v → h β c w = .ok b w₁ →
      G w₁ → Always h'.steps Φ (f β c) v fun b' v₁ => b' = b ∧ S w₁ v₁)
    {n : ℕ} {p : Prog C α} {w : W} {v : W'} {a : α} {w₁ : W} (hw : S w v)
    (he : exec h n p w = some (.ok a w₁)) (hend : G w₁) :
    Always h'.steps Φ (p.expand f) v fun a' v₁ => a' = a ∧ S w₁ v₁ := by
  induction n generalizing p w v with
  | zero => simp [exec] at he
  | succ n ih =>
    cases p with
    | ret b =>
      obtain ⟨rfl, rfl⟩ := by simpa [exec] using he
      exact always_ret ⟨rfl, hw⟩
    | call c k =>
      simp only [exec] at he
      split at he
      next b w' hc =>
        refine always_bind ((hS _ c w v b w' hw hc (exec_back hG he hend)).mono ?_)
        rintro _ v₁ ⟨rfl, hw'⟩
        exact ih hw' he
      next => simp at he
    | loop body s k =>
      have hr := ih (p := Prog.unroll body s k) hw he
      rw [Prog.expand_unroll] at hr
      exact always_unroll hr

/-- Where `Φ` holds of every command that is issued, it is enough that those commands keep `S`. -/
theorem runs_expand_always {Φ : (β : Type) → C β → W → Prop} {P : α → W → Prop}
    {f : (β : Type) → C β → Prog C' β} {S : W → W' → Prop} {G : W → Prop}
    (hG : ∀ (β : Type) (c : C β) (w : W) (b : β) (w₁ : W), h β c w = .ok b w₁ → G w₁ → G w)
    (hS : ∀ (β : Type) (c : C β) (w : W) (v : W') (b : β) (w₁ : W), S w v → Φ β c w → h β c w = .ok b w₁ →
      G w₁ → Runs h' (f β c) v fun b' v₁ => b' = b ∧ S w₁ v₁)
    {n : ℕ} {p : Prog C α} {w : W} {v : W'} {a : α} {w₁ : W} (hp : Always h.steps Φ p w P) (hw : S w v)
    (he : exec h n p w = some (.ok a w₁)) (hend : G w₁) :
    Runs h' (p.expand f) v fun a' v₁ => a' = a ∧ S w₁ v₁ := by
  induction n generalizing p w v with
  | zero => simp [exec] at he
  | succ n ih =>
    cases p with
    | ret b =>
      obtain ⟨rfl, rfl⟩ := by simpa [exec] using he
      exact runs_ret ⟨rfl, hw⟩
    | call c k =>
      simp only [exec] at he
      split at he
      next b w' hc =>
        obtain ⟨hΦ, hk⟩ := hp.of_call
        refine runs_bind ((hS _ c w v b w' hw hΦ hc (exec_back hG he hend)).mono ?_)
        rintro _ v₁ ⟨rfl, hw'⟩
        exact ih (hk _ w' hc) hw' he
      next => simp at he
    | loop body s k =>
      have hr := ih (p := Prog.unroll body s k) hp.of_loop hw he
      rw [Prog.expand_unroll] at hr
      exact runs_unroll hr

end Expand

end BEpsilon
