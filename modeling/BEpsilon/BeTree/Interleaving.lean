import BEpsilon.Lib.History
import BEpsilon.BeTree.Answers

/-!
# BEpsilon.BeTree.Interleaving — calls of several threads on one Bε-tree

A call that changes the tree draws its time stamp first and brings its message into the tree later; between the
two, other threads do what they like, so that messages for one key may come in another order than their stamps.
`Sharing` is the state of such threads, and `Newer` says of a message that it is newer than everything that
waits for its key.  As long as every message that comes into the tree is, the calls are linearizable; two
threads that work on different keys at a time never violate it.
-/

namespace BEpsilon.BeTree

open Slots Keyed PageWorld

variable {K V : Type} [LinearOrder K] [BoundedOrder K] [DecidableEq V] [Add V] [Inhabited K] [Inhabited V]

/-! ### The threads -/

/-- The key that a call changes. -/
def Mutation.key : Mutation K V → K
  | .insert key _ => key
  | .update key _ => key
  | .erase key => key

omit [LinearOrder K] [BoundedOrder K] [DecidableEq V] [Add V] [Inhabited K] in
@[simp] theorem Mutation.message_key (m : Mutation K V) (timeStamp : ℕ) : (m.message timeStamp).key = m.key := by
  cases m <;> rfl

/-- A call that a thread has begun: one that changes the tree has drawn its time stamp. -/
inductive Pending (K V : Type) : Type
  | mutation (m : Mutation K V) (timeStamp : ℕ)
  | find (key : K)

/-- A call and what it answered. -/
inductive Answered (K V : Type) : Type
  | mutation (m : Mutation K V)
  | find (key : K) (answer : Option V)

/-- What explains the answers: the plain map, and whether the root page of the tree is still a leaf. -/
structure Explained (K V : Type) where
  content : K → Option V
  rootLeaf : Bool

/-- The calls on the plain map.  A `find` answers what the map holds, except that it answers nothing while the
root page is a leaf; once the root page is none, it stays so. -/
def Answered.spec : Answered K V → Explained K V → Explained K V → Prop
  | .mutation m, s, s' => s'.content = m.toOp.apply s.content ∧ (s'.rootLeaf = true → s.rootLeaf = true)
  | .find key answer, s, s' => s' = s ∧ answer = if s.rootLeaf then none else s.content key

/-- Threads that share a tree; `now` counts their steps, and `pending` has the calls under way with the times at
which they began. -/
structure Sharing (K V T : Type) where
  world : PageWorld (BeNode K V) Header
  now : ℕ := 0
  pending : T → Option (Pending K V × ℕ) := fun _ => none
  returned : List (Returned (Answered K V)) := []

/-- What a thread does in a step. -/
inductive Action (K V : Type) : Type
  | draw (m : Mutation K V)
  | deliver (u : Upsert K V)
  | look (key : K)
  | answer (key : K) (o : Option V)

/-- The newest stamps of the messages for each key after an action. -/
def Action.bound (S : K → ℕ) : Action K V → K → ℕ
  | .deliver u => Function.update S u.key u.timeStamp
  | _ => S

namespace Sharing

variable {T : Type} [DecidableEq T]

/-- A thread begins a call. -/
def begin (s : Sharing K V T) (t : T) (p : Pending K V) (w : PageWorld (BeNode K V) Header) : Sharing K V T where
  world := w
  now := s.now + 1
  pending := Function.update s.pending t (some (p, s.now))
  returned := s.returned

/-- The call of a thread, begun at the time `began`, returns. -/
def finish (s : Sharing K V T) (t : T) (c : Answered K V) (began : ℕ) (w : PageWorld (BeNode K V) Header) :
    Sharing K V T where
  world := w
  now := s.now + 1
  pending := Function.update s.pending t none
  returned := s.returned ++ [⟨c, began, s.now⟩]

/-- One step of one thread. -/
inductive Step (R : PageRules) (N : NodeSizes) (O : Unspecified K V) :
    Sharing K V T → Action K V → Sharing K V T → Prop
  | draw {s : Sharing K V T} {timeStamp : ℕ} {w : PageWorld (BeNode K V) Header} (t : T) (m : Mutation K V)
      (hidle : s.pending t = none) (hr : Returns (handler R) drawTimeStamp s.world timeStamp w) :
      Step R N O s (.draw m) (s.begin t (.mutation m timeStamp) w)
  | deliver {s : Sharing K V T} {m : Mutation K V} {timeStamp began : ℕ} {w : PageWorld (BeNode K V) Header} (t : T)
      (hp : s.pending t = some (.mutation m timeStamp, began))
      (hr : Returns (handler R) (upsert N O (m.message timeStamp)) s.world () w) :
      Step R N O s (.deliver (m.message timeStamp)) (s.finish t (.mutation m) began w)
  | look {s : Sharing K V T} (t : T) (key : K) (hidle : s.pending t = none) :
      Step R N O s (.look key) (s.begin t (.find key) s.world)
  | answer {s : Sharing K V T} {key : K} {o : Option V} {began : ℕ} {w : PageWorld (BeNode K V) Header} (t : T)
      (hp : s.pending t = some (.find key, began)) (hr : Returns (handler R) (find key) s.world o w) :
      Step R N O s (.answer key o) (s.finish t (.find key o) began w)

/-- What the threads come to on a fresh tree by actions that `P` allows. -/
inductive Reach (R : PageRules) (N : NodeSizes) (O : Unspecified K V) (P : Sharing K V T → Action K V → Prop) :
    Sharing K V T → Prop
  | created {w : PageWorld (BeNode K V) Header} (hr : Returns (handler R) (create O) (empty {}) () w) :
      Reach R N O P { world := w }
  | step {s s' : Sharing K V T} {a : Action K V} (h : Reach R N O P s) (ha : P s a) (hs : Step R N O s a s') :
      Reach R N O P s'

/-- A message that comes in is newer than every message that waits for its key.  (The stamp 0 is drawn only when
the counter has wrapped around.) -/
def Newer (s : Sharing K V T) : Action K V → Prop
  | .deliver u => 0 < u.timeStamp ∧
      ∀ m ∈ pathMessages s.world.mem u.key s.world.created s.world.header.rootID, m.timeStamp < u.timeStamp
  | _ => True

/-- No call begins that changes a key while another one that changes the same key is under way, and the counter
of the stamps does not wrap around. -/
def Apart (s : Sharing K V T) : Action K V → Prop
  | .draw m => s.world.header.currentTimeStamp + 1 < UInt64.size ∧
      ∀ t m' timeStamp began, s.pending t = some (.mutation m' timeStamp, began) → m'.key ≠ m.key
  | _ => True

end Sharing

/-! ### The step that brings a message in -/

variable {R : PageRules} {N : NodeSizes} {O : Unspecified K V} {C : K → Option V} {w w' : PageWorld (BeNode K V) Header}
  {key : K} {H : ℕ} {pg : ℕ → K → PageId}

omit [BoundedOrder K] [DecidableEq V] [Inhabited K] [Inhabited V] in
/-- A bound for the stamps of one key may be lowered to the messages that are there. -/
theorem Held.tighten {T : K → ℕ} {mem : PageId → Option (BeNode K V)} {F : PageId → List (Upsert K V)} {b : ℕ}
    (hH : Held T mem F pg H C) (hb : ∀ g m, levels mem F pg H g key = some m → m.timeStamp ≤ b) :
    Held (Function.update T key b) mem F pg H C where
  ordered.all_good g k m hm := by
    have hgood := hH.ordered.all_good g k m hm
    refine ⟨hgood.key_eq, hgood.valid, ?_⟩
    by_cases hk : k = key
    · subst hk
      rw [Function.update_self]
      exact hb g m hm
    · rw [Function.update_of_ne hk]
      exact hgood.stamp_le
  ordered.stamps := hH.ordered.stamps
  content := hH.content

/-- Between two steps the pages are a tree that holds `C`, with no message for a key `k` later than `T k`. -/
structure Shared (R : PageRules) (N : NodeSizes) (T : K → ℕ) (C : K → Option V)
    (w : PageWorld (BeNode K V) Header) : Prop where
  tree : ∃ H pg, Keeps R.ids N True T C w.mem noFlight w.header w.created H pg
  pins : w.pins = []

namespace Shared

variable {T : K → ℕ}

omit [BoundedOrder K] [DecidableEq V] [Inhabited K] [Inhabited V] in
theorem stamp_le (hw : Shared R N T C w) {m : Upsert K V}
    (hm : m ∈ pathMessages w.mem key w.created w.header.rootID) : m.timeStamp ≤ T key := by
  obtain ⟨⟨H, pg, hK⟩, -⟩ := hw
  rw [← hK.inv.routed.top key] at hm
  obtain ⟨g, -, hlev⟩ := hK.inv.mem_pathMessages le_rfl hm
  exact ((hK.held trivial).ordered.all_good g key m hlev).stamp_le

/-- A message comes in that is newer than those that wait for its key. -/
theorem deliver (hN : N.Roomy) (hw : Shared R N T C w) {u : Upsert K V} (hpos : 0 < u.timeStamp)
    (hpath : ∀ m ∈ pathMessages w.mem u.key w.created w.header.rootID, m.timeStamp < u.timeStamp)
    (hu : u.type ≠ .INVALID) (hr : Returns (handler R) (upsert N O u) w () w') :
    Shared R N (Function.update T u.key u.timeStamp) (Function.update C u.key (u.effect (C u.key))) w' ∧
      w'.header.currentTimeStamp = w.header.currentTimeStamp ∧
      (w'.header.rootLeaf = true → w.header.rootLeaf = true) := by
  obtain ⟨⟨H, pg, hK⟩, hpins⟩ := hw
  -- the messages for the key are older than the new one
  have hbelow : Keeps R.lenient.ids N True (Function.update T u.key (u.timeStamp - 1)) C w.mem noFlight w.header
      w.created H pg := by
    refine ⟨hK.inv, fun a => (hK.held a).tighten ?_⟩
    intro g m hm
    have := hpath m (hK.inv.level_mem_path hm)
    omega
  have hnewest : Newest (Function.update T u.key (u.timeStamp - 1)) u (Function.update T u.key u.timeStamp) := by
    refine ⟨?_, by rw [Function.update_self], ?_⟩
    · rw [Function.update_self]
      omega
    · exact Function.update_mono (Nat.sub_le u.timeStamp 1)
  have hrest : AtRest R.lenient N True (Function.update T u.key (u.timeStamp - 1)) C w.header w.kept w :=
    ⟨⟨H, pg, hbelow⟩, hpins, rfl, rfl, id, id⟩
  have hspec := ((upsert_spec (O := O) rfl hN hrest (fun _ => hnewest) hu (PageRules.off rfl))).concludes
  have h := hspec.2 _ _ hr
  exact ⟨⟨h.tree, h.pins⟩, h.timeStamp, h.rootLeaf⟩

omit [BoundedOrder K] [DecidableEq V] [Inhabited K] [Inhabited V] in
/-- What `find` answers is the content of its key, or nothing while the root page is a leaf. -/
theorem answer [Std.Associative (α := V) (· + ·)] (hw : Shared R N T C w) {o : Option V}
    (hr : Returns (handler R) (find key) w o w') :
    Shared R N T C w' ∧ w'.header = w.header ∧ o = if w.header.rootLeaf then none else C key := by
  have hr' : Returns (handler R.lenient) (find key) w o w' := hr.weaken fun _ _ _ _ _ hc => handler_lenient hc
  obtain ⟨⟨H, pg, hK⟩, hpins⟩ := hw
  have hsame : ∀ {w' : PageWorld (BeNode K V) Header}, SameTree w w' → Shared R N T C w' := by
    intro w' h
    refine ⟨⟨H, pg, ?_⟩, h.pins.trans hpins⟩
    rw [h.mem, h.created, h.header]
    exact hK
  cases H with
  | zero =>
    obtain ⟨rfl, h⟩ := hr'.of_runs (runs_find_leaf (R := R.lenient) key rfl hK.inv hpins)
    refine ⟨hsame h, h.header, ?_⟩
    rw [if_pos (hK.inv.flag.mpr rfl)]
  | succ H =>
    by_cases hbase : (gatherBelow (levels w.mem noFlight pg (H + 1)) (leafEntry w.mem pg) key H []).currentValue =
        none → (gatherBelow (levels w.mem noFlight pg (H + 1)) (leafEntry w.mem pg) key H []).accumulatedUpdates = []
    · obtain ⟨ho, h⟩ := hr'.of_runs (runs_find (R := R.lenient) rfl hK.inv hpins rfl hbase)
      refine ⟨hsame h, h.header, ?_⟩
      rw [gatherBelow_content, ← hK.inv.content_eq_levels, hK.content_eq trivial] at ho
      rw [if_neg fun hleaf => absurd (hK.inv.flag.mp hleaf) (Nat.succ_ne_zero H), ho]
      exact Option.map_id'
    · obtain ⟨hnone, hne⟩ := Classical.not_imp.mp hbase
      obtain ⟨e, he⟩ := raises_find (R := R.lenient) rfl hK.inv hpins rfl hnone hne
      exact absurd he hr'.not_raises

omit [BoundedOrder K] [DecidableEq V] [Inhabited K] [Inhabited V] in
/-- A stamp is drawn. -/
theorem draw (hw : Shared R N T C w) {timeStamp : ℕ} (hr : Returns (handler R) drawTimeStamp w timeStamp w') :
    Shared R N T C w' ∧ timeStamp = nextTimeStamp w.header.currentTimeStamp ∧
      w'.header.currentTimeStamp = timeStamp ∧ w'.header.rootLeaf = w.header.rootLeaf := by
  obtain ⟨mem, created, header, pins, recent, kept⟩ := w
  obtain ⟨⟨H, pg, hK⟩, hpins⟩ := hw
  have hdraw : Runs (handler R) drawTimeStamp ⟨mem, created, header, pins, recent, kept⟩ fun a v =>
      a = nextTimeStamp header.currentTimeStamp ∧
        v = ⟨mem, created, { header with currentTimeStamp := nextTimeStamp header.currentTimeStamp }, pins, recent,
          kept⟩ := by
    simp only [drawTimeStamp, Prog.bind_def, Prog.pure_def]
    exact runs_modifyHeader (runs_ret ⟨rfl, rfl⟩)
  obtain ⟨rfl, rfl⟩ := hr.of_runs hdraw
  exact ⟨⟨⟨H, pg, hK.set_header rfl rfl⟩, hpins⟩, rfl, rfl, rfl⟩

end Shared

/-! ### Runs -/

namespace Sharing

variable {T : Type} [DecidableEq T] {s s' : Sharing K V T} {a : Action K V} {S : K → ℕ}

/-- The calls that have returned explain the tree, in the order in which they returned. -/
structure Ok (R : PageRules) (N : NodeSizes) (S : K → ℕ) (C : K → Option V) (s : Sharing K V T) : Prop where
  shared : Shared R N S C s.world
  inOrder : InOrder Answered.spec ⟨fun _ => none, true⟩ s.now s.returned ⟨C, s.world.header.rootLeaf⟩
  began : ∀ t p b, s.pending t = some (p, b) → b < s.now

omit [BoundedOrder K] [DecidableEq V] [Inhabited K] [Inhabited V] in
theorem Ok.begin (h : Ok R N S C s) (t : T) (p : Pending K V) (hw : Shared R N S C w)
    (hleaf : w.header.rootLeaf = s.world.header.rootLeaf) : Ok R N S C (s.begin t p w) where
  shared := hw
  inOrder := by
    show InOrder Answered.spec _ _ _ (Explained.mk C w.header.rootLeaf)
    rw [hleaf]
    exact h.inOrder.later (Nat.le_succ _)
  began t' p' b hp := by
    simp only [Sharing.begin] at hp ⊢
    by_cases ht : t' = t
    · subst ht
      rw [Function.update_self] at hp
      obtain ⟨-, rfl⟩ := Prod.mk.inj (Option.some.inj hp)
      exact Nat.lt_succ_self _
    · rw [Function.update_of_ne ht] at hp
      exact Nat.lt_succ_of_lt (h.began t' p' b hp)

omit [BoundedOrder K] [DecidableEq V] [Inhabited K] [Inhabited V] in
theorem Ok.finish {S' : K → ℕ} {C' : K → Option V} (h : Ok R N S C s) {t : T} {p : Pending K V} {began : ℕ}
    {c : Answered K V} (hp : s.pending t = some (p, began))
    (hc : c.spec ⟨C, s.world.header.rootLeaf⟩ ⟨C', w.header.rootLeaf⟩) (hw : Shared R N S' C' w) :
    Ok R N S' C' (s.finish t c began w) where
  shared := hw
  inOrder := h.inOrder.snoc (h.began t p began hp).le hc
  began t' p' b hp' := by
    simp only [Sharing.finish] at hp' ⊢
    by_cases ht : t' = t
    · subst ht
      rw [Function.update_self] at hp'
      cases hp'
    · rw [Function.update_of_ne ht] at hp'
      exact Nat.lt_succ_of_lt (h.began t' p' b hp')

/-- One step of one thread. -/
theorem Ok.step [Std.Associative (α := V) (· + ·)] (hN : N.Roomy) (h : Ok R N S C s) (ha : s.Newer a)
    (hs : Step R N O s a s') : ∃ C', Ok R N (a.bound S) C' s' := by
  cases hs with
  | draw t m hidle hr =>
    obtain ⟨hw, -, -, hleaf⟩ := h.shared.draw hr
    exact ⟨C, h.begin t _ hw hleaf⟩
  | deliver t hp hr =>
    obtain ⟨hw, -, hleaf⟩ := h.shared.deliver hN ha.1 ha.2 (Mutation.message_valid _ _) hr
    rw [← Mutation.apply_toOp] at hw
    exact ⟨_, h.finish hp ⟨rfl, hleaf⟩ hw⟩
  | look t key hidle => exact ⟨C, h.begin t _ h.shared rfl⟩
  | answer t hp hr =>
    obtain ⟨hw, hheader, hanswer⟩ := h.shared.answer hr
    refine ⟨C, h.finish hp ⟨?_, hanswer⟩ hw⟩
    rw [hheader]

omit [BoundedOrder K] [DecidableEq V] [DecidableEq T] [Inhabited V] in
theorem Ok.created (hr : Returns (handler R) (create O) (empty {}) () w) :
    Ok R N 0 (fun _ => none) ({ world := w } : Sharing K V T) := by
  have hspec := (create_empty (O := O) (R := R.lenient) rfl).concludes
  obtain rfl := hspec.2 _ _ hr
  have hK : Keeps R.ids N True 0 (fun _ => none) (emptyTree O R.ids 0).mem noFlight
      (emptyTree O R.ids 0).header 1 0 _ := (keeps_fresh rfl).set_header rfl rfl
  exact ⟨⟨⟨0, _, hK⟩, rfl⟩, .nil _ _ _, fun t p b hp => by cases hp⟩

theorem Reach.ok [Std.Associative (α := V) (· + ·)] (hN : N.Roomy) (h : Reach R N O Newer s) :
    ∃ S C, Ok R N S C s := by
  induction h with
  | created hr => exact ⟨_, _, .created hr⟩
  | step _ ha hs ih =>
    obtain ⟨S, C, h⟩ := ih
    obtain ⟨C', h'⟩ := h.step hN ha hs
    exact ⟨_, C', h'⟩

omit [BoundedOrder K] [DecidableEq V] [Inhabited K] [Inhabited V] [DecidableEq T] in
theorem Ok.content_eq [Std.Associative (α := V) (· + ·)] (h : Ok R N S C s) : content s.world = C := by
  obtain ⟨⟨⟨H, pg, hK⟩, -⟩, -, -⟩ := h
  ext key : 1
  exact hK.content_eq trivial key

/-! ### Calls on different keys -/

/-- The calls under way change different keys, and their stamps are newer than the messages in the tree. -/
structure Separate (S : K → ℕ) (s : Sharing K V T) : Prop where
  counter : ∀ k, S k ≤ s.world.header.currentTimeStamp
  drawn : ∀ t m timeStamp b, s.pending t = some (.mutation m timeStamp, b) →
    S m.key < timeStamp ∧ timeStamp ≤ s.world.header.currentTimeStamp
  keys : ∀ t t' m m' timeStamp timeStamp' b b', s.pending t = some (.mutation m timeStamp, b) →
    s.pending t' = some (.mutation m' timeStamp', b') → m.key = m'.key → t = t'

namespace Separate

omit [LinearOrder K] [BoundedOrder K] [DecidableEq V] [Add V] [Inhabited K] [Inhabited V] in
/-- The call of one thread is over. -/
theorem finish {S' : K → ℕ} (h : Separate S s) {t : T} {began : ℕ} {c : Answered K V}
    (hheader : w.header.currentTimeStamp = s.world.header.currentTimeStamp)
    (hcounter : ∀ k, S' k ≤ s.world.header.currentTimeStamp)
    (hS : ∀ t' m timeStamp b, t' ≠ t → s.pending t' = some (.mutation m timeStamp, b) → S' m.key = S m.key) :
    Separate S' (s.finish t c began w) := by
  have hold : ∀ {t' x}, (s.finish t c began w).pending t' = some x → t' ≠ t ∧ s.pending t' = some x := by
    intro t' x hp
    simp only [Sharing.finish] at hp
    by_cases ht : t' = t
    · rw [ht, Function.update_self] at hp
      cases hp
    · rw [Function.update_of_ne ht] at hp
      exact ⟨ht, hp⟩
  refine ⟨fun k => hheader ▸ hcounter k, fun t' m timeStamp b hp => ?_, ?_⟩
  · obtain ⟨ht, hp⟩ := hold hp
    obtain ⟨hlt, hle⟩ := h.drawn t' m timeStamp b hp
    exact ⟨hS t' m timeStamp b ht hp ▸ hlt, hheader ▸ hle⟩
  · intro t₁ t₂ m₁ m₂ ts₁ ts₂ b₁ b₂ h₁ h₂
    exact h.keys t₁ t₂ m₁ m₂ ts₁ ts₂ b₁ b₂ (hold h₁).2 (hold h₂).2

/-- One step. -/
theorem step [Std.Associative (α := V) (· + ·)] (hN : N.Roomy) (h : Separate S s) (hok : Ok R N S C s)
    (ha : s.Apart a) (hnew : s.Newer a) (hs : Step R N O s a s') : Separate (a.bound S) s' := by
  cases hs with
  | @draw timeStamp w t m hidle hr =>
    obtain ⟨hlt, hkeys⟩ := ha
    obtain ⟨-, hstamp, hheader, -⟩ := hok.shared.draw hr
    rw [nextTimeStamp, Nat.mod_eq_of_lt hlt] at hstamp
    have hold : ∀ t' m' timeStamp' b, (s.begin t (.mutation m timeStamp) w).pending t' =
        some (.mutation m' timeStamp', b) → t' = t ∧ m' = m ∧ timeStamp' = timeStamp ∨
          t' ≠ t ∧ s.pending t' = some (.mutation m' timeStamp', b) := by
      intro t' m' timeStamp' b hp
      simp only [Sharing.begin] at hp
      by_cases ht : t' = t
      · rw [ht, Function.update_self] at hp
        cases hp
        exact .inl ⟨ht, rfl, rfl⟩
      · rw [Function.update_of_ne ht] at hp
        exact .inr ⟨ht, hp⟩
    refine ⟨fun k => ?_, fun t' m' timeStamp' b hp => ?_, ?_⟩
    · have := h.counter k
      show S k ≤ w.header.currentTimeStamp
      omega
    · show S m'.key < timeStamp' ∧ timeStamp' ≤ w.header.currentTimeStamp
      rcases hold t' m' timeStamp' b hp with ⟨-, rfl, rfl⟩ | ⟨-, hp⟩
      · have := h.counter m'.key
        omega
      · have := h.drawn t' m' timeStamp' b hp
        omega
    · intro t₁ t₂ m₁ m₂ ts₁ ts₂ b₁ b₂ h₁ h₂ e
      rcases hold t₁ m₁ ts₁ b₁ h₁ with ⟨rfl, rfl, -⟩ | ⟨-, hp₁⟩ <;>
        rcases hold t₂ m₂ ts₂ b₂ h₂ with ⟨rfl, rfl, -⟩ | ⟨-, hp₂⟩
      · rfl
      · exact absurd e.symm (hkeys t₂ m₂ ts₂ b₂ hp₂)
      · exact absurd e (hkeys t₁ m₁ ts₁ b₁ hp₁)
      · exact h.keys t₁ t₂ m₁ m₂ ts₁ ts₂ b₁ b₂ hp₁ hp₂ e
  | @deliver m timeStamp began w t hp hr =>
    obtain ⟨-, hheader, -⟩ := hok.shared.deliver hN hnew.1 hnew.2 (Mutation.message_valid _ _) hr
    obtain ⟨-, hle⟩ := h.drawn t m timeStamp began hp
    refine h.finish hheader (fun k => ?_) ?_
    · by_cases hk : k = m.key
      · rw [Action.bound, Mutation.message_key, Mutation.message_timeStamp, hk, Function.update_self]
        exact hle
      · rw [Action.bound, Mutation.message_key, Function.update_of_ne hk]
        exact h.counter k
    · -- the other threads change other keys
      intro t' m' timeStamp' b ht hp'
      have hk : m'.key ≠ m.key := fun e => ht (h.keys t' t m' m timeStamp' timeStamp b began hp' hp e)
      rw [Action.bound, Mutation.message_key, Function.update_of_ne hk]
  | @look t key hidle =>
    have hold : ∀ t' m timeStamp b, (s.begin t (.find key) s.world).pending t' = some (.mutation m timeStamp, b) →
        s.pending t' = some (.mutation m timeStamp, b) := by
      intro t' m timeStamp b hp
      simp only [Sharing.begin] at hp
      by_cases ht : t' = t
      · rw [ht, Function.update_self] at hp
        cases hp
      · rwa [Function.update_of_ne ht] at hp
    exact ⟨h.counter, fun t' m ts b hp => h.drawn t' m ts b (hold t' m ts b hp),
      fun t₁ t₂ m₁ m₂ ts₁ ts₂ b₁ b₂ h₁ h₂ =>
        h.keys t₁ t₂ m₁ m₂ ts₁ ts₂ b₁ b₂ (hold t₁ m₁ ts₁ b₁ h₁) (hold t₂ m₂ ts₂ b₂ h₂)⟩
  | @answer key o began w t hp hr =>
    obtain ⟨-, hheader, -⟩ := hok.shared.answer hr
    exact h.finish (by rw [hheader]) h.counter fun _ _ _ _ _ _ => rfl

/-- A call under way is newer than all messages for its key. -/
theorem newer (h : Separate S s) (hok : Ok R N S C s) (hs : Step R N O s a s') : s.Newer a := by
  cases hs with
  | draw => trivial
  | look => trivial
  | answer => trivial
  | @deliver m timeStamp began w t hp hr =>
    obtain ⟨hlt, -⟩ := h.drawn t m timeStamp began hp
    refine ⟨?_, fun x hx => ?_⟩
    · rw [Mutation.message_timeStamp]
      omega
    · have hle := hok.shared.stamp_le hx
      rw [Mutation.message_key] at hle
      rw [Mutation.message_timeStamp]
      omega

end Separate

theorem Reach.separate [Std.Associative (α := V) (· + ·)] (hN : N.Roomy) (h : Reach R N O Apart s) :
    Reach R N O Newer s ∧ ∃ S C, Ok R N S C s ∧ Separate S s := by
  induction h with
  | created hr =>
    refine ⟨.created hr, 0, _, .created hr, fun _ => Nat.zero_le _, fun t m ts b hp => ?_, ?_⟩
    · cases hp
    · intro t t' m m' ts ts' b b' hp
      cases hp
  | step _ ha hs ih =>
    obtain ⟨hr, S, C, hok, hsep⟩ := ih
    have hnew := hsep.newer hok hs
    obtain ⟨C', hok'⟩ := hok.step hN hnew hs
    exact ⟨hr.step hnew hs, _, C', hok', hsep.step hN hok ha hnew hs⟩

/-! ### The results -/

/-- Two threads insert the keys 1 and 2; the later stamp comes in first. -/
theorem reach_crossed : ∃ s : Sharing (Fin 8) ℕ Bool,
    Reach ⟨true, none, id, fun _ _ h => h⟩ .smallest (.basic (Fin 8) ℕ) Apart s ∧
      s.returned.map Returned.ended = [2, 3] ∧ content s.world 1 = some 5 := by
  have hrun : execHolds (handler ⟨true, none, id, fun _ _ h => h⟩) 200
      (Prog.bind (create (.basic _ _)) fun _ => Prog.bind drawTimeStamp fun a => Prog.bind drawTimeStamp fun b =>
        Prog.bind (upsert .smallest (.basic (Fin 8) ℕ) ((Mutation.insert 2 7).message b)) fun _ =>
          upsert .smallest (.basic (Fin 8) ℕ) ((Mutation.insert 1 5).message a))
      (empty {}) (fun _ w => content w 1 == some 5) = true := by
    decide
  obtain ⟨n, _, w₄, he, hcontent⟩ := runs_of_exec hrun
  obtain ⟨_, w₀, hcreate, hr⟩ := Returns.of_bind ⟨n, he⟩
  obtain ⟨a, w₁, ha, hr⟩ := hr.of_bind
  obtain ⟨b, w₂, hb, hr⟩ := hr.of_bind
  obtain ⟨_, w₃, h₁, h₂⟩ := hr.of_bind
  -- the stamps
  have hok₀ : Ok ⟨true, none, id, fun _ _ h => h⟩ .smallest 0 (fun _ => none)
      ({ world := w₀ } : Sharing (Fin 8) ℕ Bool) := .created hcreate
  have hstamp : w₀.header.currentTimeStamp = 0 := by
    obtain rfl := hcreate.of_runs (create_empty rfl)
    rfl
  obtain ⟨-, hstamp₁, hheader, -⟩ := hok₀.shared.draw ha
  rw [hstamp] at hstamp₁
  -- the steps
  have hr₁ := (Reach.created hcreate).step (T := Bool) (P := Apart) (N := .smallest) (O := .basic (Fin 8) ℕ)
    (a := .draw (.insert 1 5)) ⟨by rw [hstamp]; decide, fun t m' ts began hp => by cases hp⟩
    (.draw false (.insert 1 5) rfl ha)
  have hr₂ := hr₁.step (a := .draw (.insert 2 7)) ⟨?_, ?_⟩ (.draw true (.insert 2 7) rfl hb)
  · have hr₃ := hr₂.step (a := .deliver _) trivial (.deliver true rfl h₁)
    exact ⟨_, hr₃.step (a := .deliver _) trivial (.deliver false rfl h₂), rfl, beq_iff_eq.mp hcontent⟩
  · show w₁.header.currentTimeStamp + 1 < UInt64.size
    rw [hheader, hstamp₁]
    decide
  · intro t m' ts began hp
    cases t with
    | true => cases hp
    | false =>
      cases hp
      decide

/-- As long as every message that comes into the tree is newer than those that wait for its key, the calls of the
threads that have returned are linearizable: in some order that respects which calls had returned before others
began, the plain map gives what the `find`s answered, those made while the root page was a leaf answering nothing,
and it holds in the end what the tree holds. -/
theorem newer_linearizable [Std.Associative (α := V) (· + ·)] (hN : N.Roomy) (hs : Reach R N O Newer s) :
    Linearizable Answered.spec ⟨fun _ => none, true⟩ s.returned ⟨content s.world, s.world.header.rootLeaf⟩ := by
  obtain ⟨S, C, hok⟩ := hs.ok hN
  rw [hok.content_eq]
  exact hok.inOrder.linearizable

/-- The two insertions. -/
theorem newer_linearizable_crossed : ∃ s : Sharing (Fin 8) ℕ Bool, s.returned.map Returned.ended = [2, 3] ∧
    Linearizable Answered.spec ⟨fun _ => none, true⟩ s.returned ⟨content s.world, s.world.header.rootLeaf⟩ := by
  obtain ⟨s, hs, hended, -⟩ := reach_crossed
  exact ⟨s, hended, newer_linearizable NodeSizes.smallest_roomy (hs.separate NodeSizes.smallest_roomy).1⟩

/-- Threads that change different keys at a time are linearizable, whatever the order of their steps. -/
theorem apart_linearizable [Std.Associative (α := V) (· + ·)] (hN : N.Roomy) (hs : Reach R N O Apart s) :
    Linearizable Answered.spec ⟨fun _ => none, true⟩ s.returned ⟨content s.world, s.world.header.rootLeaf⟩ := by
  obtain ⟨-, S, C, hok, -⟩ := hs.separate hN
  rw [hok.content_eq]
  exact hok.inOrder.linearizable

/-- The two insertions. -/
theorem apart_linearizable_crossed : ∃ s : Sharing (Fin 8) ℕ Bool, content s.world 1 = some 5 ∧
    Linearizable Answered.spec ⟨fun _ => none, true⟩ s.returned ⟨content s.world, s.world.header.rootLeaf⟩ := by
  obtain ⟨s, hs, -, hcontent⟩ := reach_crossed
  exact ⟨s, hcontent, apart_linearizable NodeSizes.smallest_roomy hs⟩

end Sharing

end BEpsilon.BeTree
