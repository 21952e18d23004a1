import BEpsilon.Lib.Always
import BEpsilon.Buffer.PageProg
import Mathlib.Algebra.Order.Group.Multiset
import Mathlib.Tactic.Abel

/-!
# BEpsilon.Buffer.Pins — the pins of an operation

An operation holds the pages that it has pinned and not unpinned yet, each as often as that.  It is `Tidy`
when it never unpins a page that it does not hold, and holds none when it ends.  Nothing is assumed about
what the pages hold, so that other threads may change everything that the operation has not latched.
-/

namespace BEpsilon

variable {D H W α β σ : Type}

/-- The pages held after a command that returned. -/
def PageCmd.held : PageCmd D H β → Multiset PageId → Multiset PageId
  | .pinPage id _ _, l => id ::ₘ l
  | .unpinPage id _, l => l.erase id
  | _, l => l

/-- Only a page that is held may be unpinned. -/
def PageCmd.Releases : PageCmd D H β → Multiset PageId → Prop
  | .unpinPage id _, l => id ∈ l
  | _, _ => True

/-- The steps, with a count of the pages held. -/
def holding (step : Steps (PageCmd D H) W) : Steps (PageCmd D H) (W × Multiset PageId) :=
  fun β c w b w' => step β c w.1 b w'.1 ∧ w'.2 = c.held w.2

/-- Every run has a count of the pages held. -/
theorem Comes.holding {step : Steps (PageCmd D H) W} {n : ℕ} {p q : PageProg D H α} {w v : W}
    (hr : Comes step n p w q v) (l : Multiset PageId) : ∃ l', Comes (holding step) n p (w, l) q (v, l') := by
  induction hr generalizing l with
  | refl p w => exact ⟨l, .refl _ _⟩
  | call hs _ ih =>
    obtain ⟨l', hr⟩ := ih (PageCmd.held _ l)
    exact ⟨l', .call ⟨hs, rfl⟩ hr⟩
  | loop _ ih =>
    obtain ⟨l', hr⟩ := ih l
    exact ⟨l', .loop hr⟩

/-- Every `unpinPage` is for a page that the operation holds, and it holds none when it ends: each of its
pins is released exactly once. -/
def Tidy (step : Steps (PageCmd D H) W) (p : PageProg D H α) : Prop :=
  ∀ w, Always (holding step) (fun _ c v => c.Releases v.2) p (w, 0) fun _ v => v.2 = 0

/-- A page that is read again right away has not changed: the reader has it latched. -/
def Steady (step : Steps (PageCmd D H) W) : Prop :=
  ∀ id b d d' w w₁ w₂ w₃, step D (.read id) w d w₁ → step Unit (.check b) w₁ () w₂ →
    step D (.read id) w₂ d' w₃ → d' = d

/-- Started with the pages `l`, the program releases what it holds only, and ends as `Q` says. -/
def Owns (step : Steps (PageCmd D H) W) (p : PageProg D H α) (l : Multiset PageId)
    (Q : α → Multiset PageId → Prop) : Prop :=
  ∀ w, Always (holding step) (fun _ c v => c.Releases v.2) p (w, l) fun a v => Q a v.2

section Rules

variable {step : Steps (PageCmd D H) W} {p : PageProg D H α} {l r : Multiset PageId} {id : PageId}
  {Q Q' : α → Multiset PageId → Prop}

theorem Owns.mono (hp : Owns step p l Q) (hQ : ∀ a l', Q a l' → Q' a l') : Owns step p l Q' := by
  intro w
  exact (hp w).mono fun a v h => hQ a v.2 h

theorem owns_ret {a : α} (hQ : Q a l) : Owns step (.ret a) l Q := by
  intro w
  exact always_ret hQ

theorem owns_call {c : PageCmd D H β} {k : β → PageProg D H α} (hc : c.Releases l)
    (hk : ∀ b, Owns step (k b) (c.held l) Q) : Owns step (.call c k) l Q := by
  intro w
  refine always_call hc ?_
  rintro b ⟨w', l'⟩ ⟨-, hl⟩
  dsimp only at hl
  subst hl
  exact hk b w'

theorem owns_bind {f : α → PageProg D H β} {Q : β → Multiset PageId → Prop}
    (hp : Owns step p l fun a l' => Owns step (f a) l' Q) : Owns step (p.bind f) l Q := by
  intro w
  exact always_bind ((hp w).mono fun a v h => h v.1)

theorem owns_loop {body : σ → PageProg D H (σ ⊕ β)} {k : β → PageProg D H α}
    (I : σ → Multiset PageId → Prop)
    (hstep : ∀ s l, I s l → Owns step (body s) l fun r l' =>
      match r with
      | .inl s' => I s' l'
      | .inr b => Owns step (k b) l' Q)
    {s : σ} (hI : I s l) : Owns step (.loop body s k) l Q := by
  intro w
  refine always_loop (fun s v => I s v.2) ?_ hI
  rintro s ⟨w', l'⟩ hs
  refine (hstep s l' hs w').mono ?_
  rintro (s' | b) v h
  · exact h
  · exact h v.1

theorem owns_forFold {f : σ → β → PageProg D H σ} (I : List β → σ → Multiset PageId → Prop)
    (hstep : ∀ a as s l, I (a :: as) s l → Owns step (f s a) l fun s' l' => I as s' l')
    {as : List β} {s : σ} (hI : I as s l) :
    Owns step (Prog.forFold f as s) l fun s' l' => I [] s' l' := by
  induction as generalizing s l with
  | nil => exact owns_ret hI
  | cons a as ih => exact owns_bind ((hstep a as s l hI).mono fun s' l' h => ih h)

theorem owns_createPage {f : PageId → PageProg D H α} (h : ∀ id, Owns step (f id) l Q) :
    Owns step (PageProg.createPage.bind f) l Q := owns_call trivial h

theorem owns_pinPage {mode : LatchMode D} {skipLoad : Bool} {f : Unit → PageProg D H α}
    (h : Owns step (f ()) (id ::ₘ l) Q) : Owns step ((PageProg.pinPage id mode skipLoad).bind f) l Q :=
  owns_call trivial fun _ => h

theorem owns_unpinPage {dirty : Bool} {f : Unit → PageProg D H α} (hl : l = id ::ₘ r)
    (h : Owns step (f ()) r Q) : Owns step ((PageProg.unpinPage id dirty).bind f) l Q := by
  subst hl
  refine owns_call (Multiset.mem_cons_self id r) ?_
  rintro ⟨⟩
  rwa [PageCmd.held, Multiset.erase_cons_head]

/-- `unpinPage` at the end of a block. -/
theorem owns_unpinPage_last {dirty : Bool} {Q : Unit → Multiset PageId → Prop} (hl : l = id ::ₘ r)
    (hQ : Q () r) : Owns step (PageProg.unpinPage id dirty) l Q := by
  have h : Owns step ((PageProg.unpinPage id dirty).bind .ret) l Q := owns_unpinPage hl (owns_ret hQ)
  rwa [Prog.bind_ret] at h

theorem owns_read {f : D → PageProg D H α} (h : ∀ d, Owns step (f d) l Q) :
    Owns step ((PageProg.read id).bind f) l Q := owns_call trivial h

theorem owns_peek {g : D → Bool} {f : Bool → PageProg D H α} (h : ∀ b, Owns step (f b) l Q) :
    Owns step ((PageProg.peek id g).bind f) l Q := owns_call trivial h

theorem owns_write {d : D} {f : Unit → PageProg D H α} (h : Owns step (f ()) l Q) :
    Owns step ((PageProg.write id d).bind f) l Q := owns_call trivial fun _ => h

theorem owns_getHeader {f : H → PageProg D H α} (h : ∀ header, Owns step (f header) l Q) :
    Owns step (PageProg.getHeader.bind f) l Q := owns_call trivial h

theorem owns_modifyHeader {g : H → H} {f : H → PageProg D H α} (h : ∀ header, Owns step (f header) l Q) :
    Owns step ((PageProg.modifyHeader g).bind f) l Q := owns_call trivial h

theorem owns_check {b : Bool} {f : Unit → PageProg D H α} (h : Owns step (f ()) l Q) :
    Owns step ((PageProg.check b).bind f) l Q := owns_call trivial fun _ => h

/-- Nothing is left to do after an error. -/
theorem owns_raise {e : PageErr} : Owns step (PageProg.raise e : PageProg D H α) l Q :=
  owns_call trivial fun b => b.elim

theorem Owns.tidy (hp : Owns step p 0 fun _ l' => l' = 0) : Tidy step p := hp

end Rules

end BEpsilon
