import Mathlib.Data.List.Pairwise
import Mathlib.Data.List.Perm.Basic

/-!
# BEpsilon.Lib.History — the calls of several clients against one sequential object

A history lists the calls that have returned, each with the times at which it began and ended.  It is
linearizable for a sequential object if the calls can be put in an order that never has a call before one that
had ended when it began, such that the object, taking the calls one at a time in that order, gives the same
answers and comes to the same state.

Where a call takes effect in the very step that ends it, the order in which the calls end is such an order;
`InOrder.linearizable` is that argument, with one lemma for the step that ends a call.
-/

namespace BEpsilon

/-- A call that has returned; `call` is what was called together with what it answered. -/
structure Returned (ι : Type) where
  call : ι
  began : ℕ
  ended : ℕ

section History

variable {ι σ : Type} {spec : ι → σ → σ → Prop} {s₀ s s' : σ}

/-- The object comes from `s` to `s'` by the calls of the list, one after another. -/
inductive Explains (spec : ι → σ → σ → Prop) : σ → List ι → σ → Prop
  | nil (s : σ) : Explains spec s [] s
  | cons {s s' s'' : σ} {i : ι} {l : List ι} (hi : spec i s s') (hl : Explains spec s' l s'') :
      Explains spec s (i :: l) s''

theorem Explains.snoc {l : List ι} {i : ι} (hl : Explains spec s₀ l s) (hi : spec i s s') :
    Explains spec s₀ (l ++ [i]) s' := by
  induction hl with
  | nil => exact .cons hi (.nil _)
  | cons hj _ ih => exact .cons hj (ih hi)

/-- The calls, in some order that respects real time, lead the object from `s₀` to `s`. -/
def Linearizable (spec : ι → σ → σ → Prop) (s₀ : σ) (calls : List (Returned ι)) (s : σ) : Prop :=
  ∃ order : List (Returned ι), order.Perm calls ∧ (order.Pairwise fun a b => ¬ b.ended < a.began) ∧
    Explains spec s₀ (order.map Returned.call) s

/-- The calls are listed in the order in which they ended, the last of them before `now`, and each one
explains itself when it ends. -/
structure InOrder (spec : ι → σ → σ → Prop) (s₀ : σ) (now : ℕ) (calls : List (Returned ι)) (s : σ) : Prop where
  times : ∀ c ∈ calls, c.began ≤ c.ended ∧ c.ended < now
  ends : calls.Pairwise fun a b => a.ended < b.ended
  explains : Explains spec s₀ (calls.map Returned.call) s

namespace InOrder

variable {now now' : ℕ} {calls : List (Returned ι)}

theorem nil (spec : ι → σ → σ → Prop) (s₀ : σ) (now : ℕ) : InOrder spec s₀ now [] s₀ where
  times _ hc := absurd hc List.not_mem_nil
  ends := .nil
  explains := .nil s₀

theorem later (h : InOrder spec s₀ now calls s) (hle : now ≤ now') : InOrder spec s₀ now' calls s where
  times c hc := ⟨(h.times c hc).1, Nat.lt_of_lt_of_le (h.times c hc).2 hle⟩
  ends := h.ends
  explains := h.explains

/-- A call ends now. -/
theorem snoc (h : InOrder spec s₀ now calls s) {i : ι} {began : ℕ} (hbegan : began ≤ now) (hi : spec i s s') :
    InOrder spec s₀ (now + 1) (calls ++ [⟨i, began, now⟩]) s' where
  times c hc := by
    rcases List.mem_append.mp hc with hc | hc
    · have := h.times c hc
      omega
    · obtain rfl := List.mem_singleton.mp hc
      exact ⟨hbegan, Nat.lt_succ_self now⟩
  ends := by
    refine List.pairwise_append.mpr ⟨h.ends, List.pairwise_singleton _ _, ?_⟩
    intro a ha b hb
    obtain rfl := List.mem_singleton.mp hb
    exact (h.times a ha).2
  explains := by
    rw [List.map_append]
    exact h.explains.snoc hi

theorem linearizable (h : InOrder spec s₀ now calls s) : Linearizable spec s₀ calls s := by
  refine ⟨calls, .refl _, ?_, h.explains⟩
  refine h.ends.imp_of_mem ?_
  intro a b ha _ hab hlt
  have := (h.times a ha).1
  omega

end InOrder

end History

end BEpsilon
