import BEpsilon.Buffer.Layout

/-!
# BEpsilon.Buffer.Fills — what a tree operation writes on its pages

`Fills` follows the contents of the pages through a program of the tree, whatever the header is and whatever pages
are pinned: what the program reads is there, and every node that it writes is `Ok`.  One rule for each command.
-/

namespace BEpsilon.Buffer

variable {D H α β σ : Type} {R : PageRules} {Ok : ℕ → D → Prop}

variable (R Ok) in
/-- On the pages `mem`, of which `n` were created, the program writes only what is `Ok`, and ends as `Q` says. -/
def Fills (p : PageProg D H α) (mem : PageId → Option D) (n : ℕ) (Q : α → (PageId → Option D) → ℕ → Prop) : Prop :=
  ∀ w : PageWorld D H, w.mem = mem → w.created = n →
    Always (PageWorld.handler R).steps (Writes Ok) p w fun a w' => Q a w'.mem w'.created

variable {mem : PageId → Option D} {n : ℕ} {p : PageProg D H α} {id : PageId}
  {Q Q' : α → (PageId → Option D) → ℕ → Prop}

theorem Fills.mono (hp : Fills R Ok p mem n Q) (hQ : ∀ a mem' n', Q a mem' n' → Q' a mem' n') :
    Fills R Ok p mem n Q' := fun w hm hn => (hp w hm hn).mono fun _ _ => hQ _ _ _

theorem fills_ret {a : α} (hQ : Q a mem n) : Fills R Ok (.ret a : PageProg D H α) mem n Q := by
  rintro w rfl rfl
  exact always_ret hQ

theorem fills_bind {f : α → PageProg D H β} {Q : β → (PageId → Option D) → ℕ → Prop}
    (hp : Fills R Ok p mem n fun a mem' n' => Fills R Ok (f a) mem' n' Q) : Fills R Ok (p.bind f) mem n Q :=
  fun w hm hn => always_bind ((hp w hm hn).mono fun _ w' h => h w' rfl rfl)

/-- A loop with an invariant. -/
theorem fills_iter {body : σ → PageProg D H (σ ⊕ α)} (I : σ → (PageId → Option D) → ℕ → Prop)
    (hstep : ∀ s mem n, I s mem n → Fills R Ok (body s) mem n fun r mem' n' =>
      match r with
      | .inl s' => I s' mem' n'
      | .inr a => Q a mem' n')
    {s : σ} (hI : I s mem n) : Fills R Ok (Prog.iter body s) mem n Q := by
  rintro w rfl rfl
  refine always_loop (fun s w => I s w.mem w.created) (fun s w hI => ?_) hI
  refine (hstep s _ _ hI w rfl rfl).mono ?_
  rintro (s' | a) w' h
  · exact h
  · exact always_ret h

theorem fills_call {c : PageCmd D H β} {k : β → PageProg D H α}
    (hc : ∀ w : PageWorld D H, w.mem = mem → w.created = n → Writes Ok β c w ∧
      ∀ b w', PageWorld.handler R β c w = .ok b w' → Fills R Ok (k b) w'.mem w'.created Q) :
    Fills R Ok (.call c k) mem n Q := fun w hm hn =>
  always_call (hc w hm hn).1 fun b w' hs => (hc w hm hn).2 b w' hs w' rfl rfl

/-- A command that leaves the pages alone. -/
theorem fills_silent {c : PageCmd D H β} {k : β → PageProg D H α}
    (hc : ∀ w b w', PageWorld.handler R β c w = .ok b w' → w'.mem = w.mem ∧ w'.created = w.created)
    (hw : ∀ w, Writes Ok β c w) (hk : ∀ b, Fills R Ok (k b) mem n Q) : Fills R Ok (.call c k) mem n Q := by
  refine fills_call fun w hm hn => ⟨hw w, fun b w' hs => ?_⟩
  obtain ⟨hm', hn'⟩ := hc w b w' hs
  rw [hm', hn', hm, hn]
  exact hk b

theorem fills_createPage {f : PageId → PageProg D H α} (h : Fills R Ok (f (R.ids n)) mem (n + 1) Q) :
    Fills R Ok (PageProg.createPage.bind f) mem n Q := by
  refine fills_call fun w hm hn => ⟨trivial, fun b w' hs => ?_⟩
  obtain ⟨rfl, rfl⟩ := Outcome.ok.inj hs
  subst hm hn
  exact h

theorem fills_pinPage {mode : LatchMode D} {skipLoad : Bool} {f : Unit → PageProg D H α}
    (h : Fills R Ok (f ()) mem n Q) : Fills R Ok ((PageProg.pinPage id mode skipLoad).bind f) mem n Q := by
  refine fills_silent (fun w b w' hs => ?_) (fun _ => trivial) fun _ => h
  grind [PageWorld.handler]

theorem fills_unpinPage {dirty : Bool} {f : Unit → PageProg D H α} (h : Fills R Ok (f ()) mem n Q) :
    Fills R Ok ((PageProg.unpinPage id dirty).bind f) mem n Q := by
  refine fills_silent (fun w b w' hs => ?_) (fun _ => trivial) fun _ => h
  grind [PageWorld.handler]

/-- `unpinPage` at the end of a block. -/
theorem fills_unpinPage_last {dirty : Bool} {Q : Unit → (PageId → Option D) → ℕ → Prop} (hQ : Q () mem n) :
    Fills R Ok (PageProg.unpinPage id dirty : PageProg D H Unit) mem n Q := by
  have h : Fills R Ok ((PageProg.unpinPage id dirty : PageProg D H Unit).bind .ret) mem n Q :=
    fills_unpinPage (fills_ret hQ)
  rwa [Prog.bind_ret] at h

theorem fills_read {f : D → PageProg D H α} (h : ∀ d, mem id = some d → Fills R Ok (f d) mem n Q) :
    Fills R Ok ((PageProg.read id).bind f) mem n Q := by
  refine fills_call fun w hm hn => ⟨trivial, fun d w' hs => ?_⟩
  subst hm hn
  simp only [PageWorld.handler] at hs
  split at hs
  next d' hd =>
    split at hs
    · obtain ⟨rfl, rfl⟩ := Outcome.ok.inj hs
      exact h _ hd
    · cases hs
  · cases hs

theorem fills_peek {g : D → Bool} {f : Bool → PageProg D H α} (h : ∀ b, Fills R Ok (f b) mem n Q) :
    Fills R Ok ((PageProg.peek id g).bind f) mem n Q := by
  refine fills_silent (fun w b w' hs => ?_) (fun _ => trivial) h
  grind [PageWorld.handler]

theorem fills_write {d : D} {f : Unit → PageProg D H α} (hd : Ok n d)
    (h : Fills R Ok (f ()) (Function.update mem id (some d)) n Q) :
    Fills R Ok ((PageProg.write id d).bind f) mem n Q := by
  refine fills_call fun w hm hn => ⟨by subst hn; exact hd, fun b w' hs => ?_⟩
  subst hm hn
  simp only [PageWorld.handler] at hs
  split at hs
  · obtain ⟨-, rfl⟩ := Outcome.ok.inj hs
    exact h
  · cases hs

theorem fills_getHeader {f : H → PageProg D H α} (h : ∀ header, Fills R Ok (f header) mem n Q) :
    Fills R Ok (PageProg.getHeader.bind f) mem n Q := by
  refine fills_silent (fun w b w' hs => ?_) (fun _ => trivial) h
  obtain ⟨-, rfl⟩ := Outcome.ok.inj hs
  exact ⟨rfl, rfl⟩

theorem fills_modifyHeader {g : H → H} {f : H → PageProg D H α} (h : ∀ header, Fills R Ok (f header) mem n Q) :
    Fills R Ok ((PageProg.modifyHeader g).bind f) mem n Q := by
  refine fills_silent (fun w b w' hs => ?_) (fun _ => trivial) h
  obtain ⟨-, rfl⟩ := Outcome.ok.inj hs
  exact ⟨rfl, rfl⟩

/-- Behind an assert that is compiled in, the program goes on only where it holds. -/
theorem fills_check (hR : R.asserts = true) {b : Bool} {f : Unit → PageProg D H α}
    (h : b = true → Fills R Ok (f ()) mem n Q) : Fills R Ok ((PageProg.check b).bind f) mem n Q := by
  refine fills_call fun w hm hn => ⟨trivial, fun a w' hs => ?_⟩
  subst hm hn
  cases b with
  | true =>
    obtain ⟨-, rfl⟩ : () = a ∧ w = w' := by simpa [PageWorld.handler] using hs
    exact h rfl
  | false => simp [PageWorld.handler, hR] at hs

end BEpsilon.Buffer
