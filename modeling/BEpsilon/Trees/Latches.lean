import BEpsilon.Buffer.PageProg
import BEpsilon.Lib.Pool

/-!
# BEpsilon.Trees.Latches — threads on the pages of one tree

`Latched` is the memory that the threads of a tree share: the pages, the header and the latches that each
thread holds.  `pinPage` waits until the latch is free.  The mode function of a pin is evaluated before the
latch is taken, when the slot may still have the data of the page that it held before, so it may be applied to
any data; and any pin or creation of a page may end the call with an error, whose latches stay taken.

`Sight` is what one thread knows about the root page: whether and how it is latched, its data while it is, and
what of the flag in the header cannot change.  `guarantee` is what the threads owe each other, and the
commands keep `Guarded`: the root page is never a child, and while nobody has latched it exclusively the flag
tells what it is.
-/

namespace BEpsilon

/-- What the latching of the root depends on: the node types, the children in use and the header. -/
structure TreeLayout (D H : Type) where
  isLeaf : D → Bool
  mayBeRoot : D → Prop
  refers : D → PageId → Prop
  rootID : H → PageId
  /-- `header.leafRoot` or `header.rootLeaf` -/
  rootLeaf : H → Bool

/-- Pages and header of a tree with the latches of the threads `T`; `due t` tells that the call of `t` still
has the assert on the flag before it. -/
structure Latched (D H T : Type) where
  mem : PageId → Option D
  created : Set PageId
  header : H
  latch : PageId → T → Option Bool
  due : T → Bool

namespace Latched

variable {D H T : Type} [DecidableEq T]

/-- May a pin in this mode latch the page exclusively, or shared? -/
def Grants : LatchMode D → Bool → Prop
  | .fixed exclusive, e => e = exclusive
  | .modeFunction f, e => ∃ d, f d = e

/-- Is the latch of a page free for `t` in this mode? -/
def Free (w : Latched D H T) (id : PageId) (t : T) (e : Bool) : Prop :=
  w.latch id t = none ∧ ∀ u, u ≠ t → w.latch id u = none ∨ e = false ∧ w.latch id u = some false

/-- Thread `t` holds this latch on the page, or none. -/
def setLatch (w : Latched D H T) (id : PageId) (t : T) (l : Option Bool) : Latched D H T :=
  { w with latch := Function.update w.latch id (Function.update (w.latch id) t l) }

/-- The commands of thread `t`. -/
def step (t : T) : Steps (PageCmd D H) (Latched D H T)
  | _, .createPage, w, id, w' => id ∉ w.created ∧ w' = { w with created := insert id w.created }
  | _, .pinPage id mode _, w, _, w' => ∃ e, Grants mode e ∧ w.Free id t e ∧ w' = w.setLatch id t (some e)
  | _, .unpinPage id _, w, _, w' => w.latch id t ≠ none ∧ w' = w.setLatch id t none
  | _, .read id, w, d, w' => w.mem id = some d ∧ w' = w
  | _, .peek _ _, w, _, w' => w' = w
  | _, .write id d, w, _, w' => w' = { w with mem := Function.update w.mem id (some d) }
  | _, .header f, w, h, w' => h = w.header ∧ w' = { w with header := f w.header }
  | _, .check _, w, _, w' => w' = { w with due := Function.update w.due t false }
  | _, .raise _, _, x, _ => x.elim

/-- The commands that may end a call with an error. -/
def raises : (β : Type) → PageCmd D H β → Prop
  | _, .createPage => True
  | _, .pinPage _ _ _ => True
  | _, .raise _ => True
  | _, _ => False

/-- The threads of a tree with the calls `call`, of which `asserts` tells the ones that check the flag. -/
def rules {ι α : Type} (call : ι → PageProg D H α) (asserts : ι → Bool) :
    PoolRules ι (PageCmd D H) (Latched D H T) T α where
  call := call
  enter m t w := { w with due := Function.update w.due t (asserts m) }
  step := step
  raises _ β c _ := raises β c

/-- Threads about to make their first calls on a tree. -/
def started {ι α : Type} (call : ι → PageProg D H α) (asserts : ι → Bool) (mem : PageId → Option D)
    (created : Set PageId) (header : H) (op : T → ι) : Pool ι (PageCmd D H) (Latched D H T) T α where
  world := ⟨mem, created, header, fun _ _ => none, fun t => asserts (op t)⟩
  op := op
  rest t := call (op t)

section Latch

variable {w : Latched D H T} {id id' : PageId} {t u : T} {l : Option Bool}

theorem setLatch_self : (w.setLatch id t l).latch id t = l := by
  simp [setLatch]

theorem setLatch_thread (hu : u ≠ t) : (w.setLatch id t l).latch id' u = w.latch id' u := by
  by_cases e : id' = id
  · subst e
    simp [setLatch, hu]
  · simp [setLatch, e]

theorem setLatch_page (h : id' ≠ id) : (w.setLatch id t l).latch id' u = w.latch id' u := by
  simp [setLatch, h]

end Latch

end Latched

/-! ### The view of a thread -/

/-- What a thread knows: its latches with the data below them, what is known of the flag, and whether the
assert on the flag is to come.  The data counts only below an exclusive latch, and for the root page. -/
structure Sight (D : Type) where
  held : PageId → Option (Bool × Option D)
  flag : Option Bool
  due : Bool

namespace Sight

variable {D : Type}

/-- After a pin of a page that is not the root. -/
def hold (s : Sight D) (id : PageId) (e : Bool) (d : Option D) : Sight D :=
  { s with held := Function.update s.held id (some (e, d)) }

/-- The page is latched exclusively and has this data. -/
def put (s : Sight D) (id : PageId) (d : D) : Sight D := s.hold id true (some d)

def know (s : Sight D) (b : Bool) : Sight D := { s with flag := some b }

variable {s : Sight D} {id id' : PageId} {e b : Bool} {d : Option D}

@[simp] theorem hold_self : (s.hold id e d).held id = some (e, d) := Function.update_self _ _ _

@[simp] theorem hold_ne (h : id' ≠ id) : (s.hold id e d).held id' = s.held id' := Function.update_of_ne h _ _

@[simp] theorem hold_flag : (s.hold id e d).flag = s.flag := rfl

@[simp] theorem hold_due : (s.hold id e d).due = s.due := rfl

@[simp] theorem know_held : (s.know b).held = s.held := rfl

@[simp] theorem know_flag : (s.know b).flag = some b := rfl

@[simp] theorem know_due : (s.know b).due = s.due := rfl

end Sight

section Guarantee

variable {D H T : Type} [DecidableEq T] (L : TreeLayout D H) (root : PageId)

namespace Sight

/-- After the release of a page: without a latch on the root the flag may change to `false`. -/
def drop (s : Sight D) (id : PageId) : Sight D where
  held := Function.update s.held id none
  flag := if id = root ∧ s.flag = some true then none else s.flag
  due := s.due

/-- A latched root page has data of which the flag is known to tell what it is. -/
def Calm (s : Sight D) : Prop :=
  ∀ e d, s.held root = some (e, d) → ∃ x, d = some x ∧ s.flag = some (L.isLeaf x)

end Sight

/-- What a command does to the view of the thread that issues it. -/
def sightStep : Steps (PageCmd D H) (Sight D)
  | _, .createPage, s, id, s' => id ≠ root ∧ s' = s
  | _, .pinPage id mode _, s, _, s' => s.held id = none ∧ ∃ e, Latched.Grants mode e ∧ ∃ d,
      if id = root then ∃ x, d = some x ∧ L.mayBeRoot x ∧ (∀ b, s.flag = some b → L.isLeaf x = b) ∧
        s' = (s.hold id e d).know (L.isLeaf x)
      else s' = s.hold id e d
  | _, .unpinPage id _, s, _, s' => s.held id ≠ none ∧ s' = s.drop root id
  | _, .read id, s, d, s' => (∀ e, L.refers d e → e ≠ root) ∧
      (∀ e x, s.held id = some (e, x) → e = true ∨ id = root → x = some d) ∧ s' = s
  | _, .peek _ _, s, _, s' => s' = s
  | _, .write id d, s, _, s' => ∃ e x, s.held id = some (e, x) ∧ s' = s.hold id e (some d)
  | _, .header f, s, h, s' => L.rootID h = root ∧ (∀ b, s.flag = some b → L.rootLeaf h = b) ∧
      s' = { s with flag := if L.rootLeaf (f h) = false then some false else s.flag }
  | _, .check _, s, _, s' => s' = { s with due := false }
  | _, .raise _, _, x, _ => x.elim

/-- What a thread owes to the others.  A page is written below a latch, the root page below an exclusive
one; no child of a written node is the root page; only a thread with the root latched exclusively changes the
flag, and only to `false`; and who releases the root page, or stops with an error, leaves the flag right. -/
def guarantee : (β : Type) → PageCmd D H β → Sight D → Prop
  | _, .createPage, s => s.Calm L root
  | _, .pinPage _ _ _, s => s.Calm L root
  | _, .unpinPage id _, s => id = root → s.Calm L root
  | _, .read _, _ => True
  | _, .peek _ _, _ => True
  | _, .write id d, s => s.held id ≠ none ∧ (∀ e, L.refers d e → e ≠ root) ∧
      (id = root → L.mayBeRoot d ∧ ∃ x, s.held id = some (true, x))
  | _, .header f, s => ∀ h, L.rootID (f h) = L.rootID h ∧ (L.rootLeaf (f h) = L.rootLeaf h ∨
      L.rootLeaf (f h) = false ∧ ∃ x, s.held root = some (true, x))
  | _, .check b, s => s.due = true → b = true
  | _, .raise _, s => s.Calm L root

/-- What is always true of the memory. -/
structure Guarded (w : Latched D H T) : Prop where
  alone : ∀ id t u, w.latch id t = some true → u ≠ t → w.latch id u = none
  rootID : L.rootID w.header = root
  created : root ∈ w.created
  rootNode : ∃ d, w.mem root = some d ∧ L.mayBeRoot d ∧
    ((∀ t, w.latch root t ≠ some true) → L.rootLeaf w.header = L.isLeaf d)
  refers : ∀ id d e, w.mem id = some d → L.refers d e → e ≠ root

/-- The view of a thread is true. -/
structure Sees (t : T) (w : Latched D H T) (s : Sight D) : Prop where
  latch : ∀ id, w.latch id t = (s.held id).map Prod.fst
  data : ∀ id e d, s.held id = some (e, d) → e = true ∨ id = root → w.mem id = d
  flag : ∀ b, s.flag = some b → L.rootLeaf w.header = b
  stays : s.flag = some true → s.held root ≠ none
  due : s.due = w.due t

variable {L root} {t u : T} {w w' : Latched D H T} {s x : Sight D}

omit [DecidableEq T] in
theorem Sees.latch_some (hs : Sees L root t w s) {id : PageId} {e : Bool} {d : Option D}
    (h : s.held id = some (e, d)) : w.latch id t = some e := by
  rw [hs.latch, h]
  rfl

omit [DecidableEq T] in
theorem Sees.latch_none (hs : Sees L root t w s) {id : PageId} (h : w.latch id t = none) : s.held id = none := by
  rw [hs.latch] at h
  exact Option.map_eq_none_iff.mp h

/-- Nobody has a page latched exclusively whose latch is free. -/
theorem Latched.Free.shared {id : PageId} {e : Bool} (h : w.Free id t e) (u : T) : w.latch id u ≠ some true := by
  by_cases hu : u = t
  · rw [hu, h.1]
    simp
  · rcases h.2 u hu with h | ⟨-, h⟩
    · rw [h]
      simp
    · rw [h]
      simp

/-! ### What one command keeps -/

omit [DecidableEq T] in
/-- The flag tells what the root page is when nobody has it latched exclusively. -/
theorem Guarded.flag_eq (hg : Guarded L root w) (h : ∀ u, w.latch root u ≠ some true) :
    ∃ d, w.mem root = some d ∧ L.mayBeRoot d ∧ L.rootLeaf w.header = L.isLeaf d := by
  obtain ⟨d, hd, hmay, hflag⟩ := hg.rootNode
  exact ⟨d, hd, hmay, hflag h⟩

theorem Guarded.pinPage (hg : Guarded L root w) (hs : Sees L root t w s) {id : PageId} {mode : LatchMode D}
    {skipLoad : Bool} (hstep : Latched.step t _ (.pinPage id mode skipLoad) w () w') :
    Guarded L root w' ∧ ∃ s', sightStep L root _ (.pinPage id mode skipLoad) s () s' ∧ Sees L root t w' s' := by
  obtain ⟨e, hgrants, hfree, rfl⟩ := hstep
  have hnone : s.held id = none := hs.latch_none hfree.1
  refine ⟨⟨?_, hg.rootID, hg.created, ?_, hg.refers⟩, ?_⟩
  · intro i t₁ t₂ hl hne
    by_cases hi : i = id
    · subst hi
      by_cases h₁ : t₁ = t
      · subst h₁
        rw [Latched.setLatch_self] at hl
        obtain rfl := Option.some.inj hl
        rw [Latched.setLatch_thread hne]
        exact (hfree.2 t₂ hne).resolve_right fun h => Bool.noConfusion h.1
      · rw [Latched.setLatch_thread h₁] at hl
        exact absurd hl (hfree.shared t₁)
    · rw [Latched.setLatch_page hi] at hl ⊢
      exact hg.alone i t₁ t₂ hl hne
  · obtain ⟨d, hd, hmay, hflag⟩ := hg.rootNode
    refine ⟨d, hd, hmay, ?_⟩
    intro hall
    refine hflag fun u => ?_
    by_cases hi : root = id
    · subst hi
      exact hfree.shared u
    · have h := hall u
      rwa [Latched.setLatch_page hi] at h
  · have hheld : ∀ i, (w.setLatch id t (some e)).latch i t = ((s.hold id e (w.mem id)).held i).map Prod.fst := by
      intro i
      by_cases hi : i = id
      · subst hi
        rw [Latched.setLatch_self, Sight.hold_self]
        rfl
      · rw [Latched.setLatch_page hi, Sight.hold_ne hi]
        exact hs.latch i
    have hdata : ∀ i e' d, (s.hold id e (w.mem id)).held i = some (e', d) → e' = true ∨ i = root → w.mem i = d := by
      intro i e' d h hex
      by_cases hi : i = id
      · subst hi
        rw [Sight.hold_self] at h
        obtain ⟨-, rfl⟩ := by simpa using h
        rfl
      · rw [Sight.hold_ne hi] at h
        exact hs.data i e' d h hex
    by_cases hroot : id = root
    · subst hroot
      obtain ⟨d, hd, hmay, hflag⟩ := hg.flag_eq hfree.shared
      refine ⟨(s.hold id e (w.mem id)).know (L.isLeaf d), ⟨hnone, e, hgrants, w.mem id, ?_⟩, ?_⟩
      · rw [if_pos rfl]
        refine ⟨d, hd, hmay, ?_, rfl⟩
        intro b hb
        rw [← hflag]
        exact hs.flag b hb
      · refine ⟨hheld, hdata, ?_, ?_, hs.due⟩
        · intro b hb
          obtain rfl := Option.some.inj hb
          exact hflag
        · intro _
          simp
    · refine ⟨s.hold id e (w.mem id), ⟨hnone, e, hgrants, w.mem id, ?_⟩, ?_⟩
      · rw [if_neg hroot]
      · refine ⟨hheld, hdata, hs.flag, ?_, hs.due⟩
        intro h
        rw [Sight.hold_ne (Ne.symm hroot)]
        exact hs.stays h

theorem Guarded.unpinPage (hg : Guarded L root w) (hs : Sees L root t w s) {id : PageId} {dirty : Bool}
    (hcalm : id = root → s.Calm L root) (hstep : Latched.step t _ (.unpinPage id dirty) w () w') :
    Guarded L root w' ∧ ∃ s', sightStep L root _ (.unpinPage id dirty) s () s' ∧ Sees L root t w' s' := by
  obtain ⟨hlatch, rfl⟩ := hstep
  have hheld : s.held id ≠ none := by
    intro h
    rw [hs.latch, h] at hlatch
    exact hlatch rfl
  refine ⟨⟨?_, hg.rootID, hg.created, ?_, hg.refers⟩, s.drop root id, ⟨hheld, rfl⟩, ?_⟩
  · intro i t₁ t₂ hl hne
    by_cases h₁ : t₁ = t
    · subst h₁
      rw [Latched.setLatch_thread hne]
      by_cases hi : i = id
      · subst hi
        rw [Latched.setLatch_self] at hl
        cases hl
      · rw [Latched.setLatch_page hi] at hl
        exact hg.alone i t₁ t₂ hl hne
    · rw [Latched.setLatch_thread h₁] at hl
      have h := hg.alone i t₁ t₂ hl hne
      by_cases h₂ : t₂ = t
      · subst h₂
        by_cases hi : i = id
        · subst hi
          exact Latched.setLatch_self
        · rwa [Latched.setLatch_page hi]
      · rwa [Latched.setLatch_thread h₂]
  · obtain ⟨d, hd, hmay, hflag⟩ := hg.rootNode
    refine ⟨d, hd, hmay, ?_⟩
    intro hall
    by_cases hex : w.latch root t = some true
    · -- the thread that releases the root page has left the flag right
      have hid : id = root := by
        by_contra hne
        refine hall t ?_
        rw [Latched.setLatch_page (Ne.symm hne)]
        exact hex
      subst hid
      obtain ⟨⟨e, d'⟩, he⟩ := Option.ne_none_iff_exists'.mp hheld
      obtain ⟨x, rfl, hx⟩ := hcalm rfl e d' he
      obtain rfl : d = x := by
        have h := hs.data id e (some x) he (.inr rfl)
        rw [hd] at h
        exact Option.some.inj h
      exact hs.flag _ hx
    · refine hflag fun u => ?_
      by_cases hu : u = t
      · subst hu
        exact hex
      · have h := hall u
        rwa [Latched.setLatch_thread hu] at h
  · refine ⟨?_, ?_, ?_, ?_, hs.due⟩
    · intro i
      by_cases hi : i = id
      · subst hi
        rw [Latched.setLatch_self]
        simp [Sight.drop]
      · rw [Latched.setLatch_page hi]
        simp only [Sight.drop, Function.update_of_ne hi]
        exact hs.latch i
    · intro i e d h hex
      by_cases hi : i = id
      · subst hi
        simp [Sight.drop] at h
      · simp only [Sight.drop, Function.update_of_ne hi] at h
        exact hs.data i e d h hex
    · intro b hb
      simp only [Sight.drop] at hb
      split at hb
      · cases hb
      · exact hs.flag b hb
    · intro h
      simp only [Sight.drop] at h ⊢
      split at h
      next => cases h
      next hne =>
        have hid : root ≠ id := fun e => hne ⟨e.symm, h⟩
        rw [Function.update_of_ne hid]
        exact hs.stays h

omit [DecidableEq T] in
theorem Guarded.write (hg : Guarded L root w) (hs : Sees L root t w s) {id : PageId} {d : D}
    (hΦ : guarantee L root _ (.write id d) s) :
    Guarded L root { w with mem := Function.update w.mem id (some d) } ∧ ∃ s',
      sightStep L root _ (.write id d) s () s' ∧
        Sees L root t { w with mem := Function.update w.mem id (some d) } s' := by
  obtain ⟨hheld, hrefers, hroot⟩ := hΦ
  obtain ⟨⟨e, x⟩, he⟩ := Option.ne_none_iff_exists'.mp hheld
  refine ⟨⟨hg.alone, hg.rootID, hg.created, ?_, ?_⟩, s.hold id e (some d), ⟨e, x, he, rfl⟩, ?_⟩
  · by_cases hid : id = root
    · subst hid
      obtain ⟨hmay, x', hx'⟩ := hroot rfl
      refine ⟨d, Function.update_self _ _ _, hmay, ?_⟩
      intro hall
      exact absurd (hs.latch_some hx') (hall t)
    · obtain ⟨d', hd', h⟩ := hg.rootNode
      exact ⟨d', (Function.update_of_ne (Ne.symm hid) _ _).trans hd', h⟩
  · intro i d' e' hd' hr
    dsimp only at hd'
    by_cases hi : i = id
    · subst hi
      rw [Function.update_self] at hd'
      obtain rfl := Option.some.inj hd'
      exact hrefers e' hr
    · rw [Function.update_of_ne hi] at hd'
      exact hg.refers i d' e' hd' hr
  · refine ⟨?_, ?_, hs.flag, ?_, hs.due⟩
    · intro i
      by_cases hi : i = id
      · subst hi
        rw [Sight.hold_self]
        exact hs.latch_some he
      · rw [Sight.hold_ne hi]
        exact hs.latch i
    · intro i e' d' h hex
      dsimp only
      by_cases hi : i = id
      · subst hi
        rw [Sight.hold_self] at h
        rw [Function.update_self]
        obtain ⟨-, h⟩ := by simpa using h
        exact h
      · rw [Sight.hold_ne hi] at h
        rw [Function.update_of_ne hi]
        exact hs.data i e' d' h hex
    · intro h
      by_cases hi : root = id
      · subst hi
        simp
      · rw [Sight.hold_ne hi]
        exact hs.stays h

omit [DecidableEq T] in
/-- Below a latch of its own a thread sees its data, whatever page another thread writes. -/
theorem Sees.write (hg : Guarded L root w) (hs : Sees L root t w s) (hu : u ≠ t) (hx : Sees L root u w x)
    {id : PageId} {d : D} (hΦ : guarantee L root _ (.write id d) s) :
    Sees L root u { w with mem := Function.update w.mem id (some d) } x := by
  obtain ⟨hheld, -, hroot⟩ := hΦ
  obtain ⟨⟨e, y⟩, he⟩ := Option.ne_none_iff_exists'.mp hheld
  refine ⟨hx.latch, ?_, hx.flag, hx.stays, hx.due⟩
  intro i e' d' h hex
  have hi : i ≠ id := by
    rintro rfl
    have hl := hx.latch_some h
    rcases hex with rfl | rfl
    · have := hg.alone i u t hl (Ne.symm hu)
      rw [hs.latch_some he] at this
      cases this
    · obtain ⟨-, x', hx'⟩ := hroot rfl
      have := hg.alone i t u (hs.latch_some hx') hu
      rw [hl] at this
      cases this
  exact (Function.update_of_ne hi _ _).trans (hx.data i e' d' h hex)

omit [DecidableEq T] in
theorem Guarded.header (hg : Guarded L root w) (hs : Sees L root t w s) {f : H → H}
    (hΦ : guarantee L root _ (.header f) s) :
    Guarded L root { w with header := f w.header } ∧ ∃ s',
      sightStep L root _ (.header f) s w.header s' ∧ Sees L root t { w with header := f w.header } s' := by
  obtain ⟨hID, hflag⟩ := hΦ w.header
  refine ⟨⟨hg.alone, hID.trans hg.rootID, hg.created, ?_, hg.refers⟩, _, ⟨hg.rootID, hs.flag, rfl⟩, ?_⟩
  · obtain ⟨d, hd, hmay, h⟩ := hg.rootNode
    refine ⟨d, hd, hmay, ?_⟩
    intro hall
    rcases hflag with he | ⟨-, x', hx'⟩
    · exact he.trans (h hall)
    · exact absurd (hs.latch_some hx') (hall t)
  · refine ⟨hs.latch, hs.data, ?_, ?_, hs.due⟩
    · intro b hb
      dsimp only at hb ⊢
      split at hb
      next h =>
        obtain rfl := Option.some.inj hb
        exact h
      next h =>
        rcases hflag with he | ⟨he, -⟩
        · exact he.trans (hs.flag b hb)
        · exact absurd he h
    · intro h
      dsimp only at h ⊢
      split at h
      · cases h
      · exact hs.stays h

omit [DecidableEq T] in
/-- What is known of the flag does not change, since it is only cleared, below the exclusive latch. -/
theorem Sees.header (hg : Guarded L root w) (hs : Sees L root t w s) (hu : u ≠ t) (hx : Sees L root u w x)
    {f : H → H} (hΦ : guarantee L root _ (.header f) s) : Sees L root u { w with header := f w.header } x := by
  refine ⟨hx.latch, hx.data, ?_, hx.stays, hx.due⟩
  intro b hb
  rcases (hΦ w.header).2 with he | ⟨he, y, hy⟩
  · exact he.trans (hx.flag b hb)
  · cases b with
    | false => exact he
    | true =>
      -- both have the root page latched
      have h := hg.alone root t u (hs.latch_some hy) hu
      exact absurd (hx.latch_none h) (hx.stays hb)

/-! ### Threads with their views -/

/-- Every command of a thread that keeps its guarantee keeps the memory guarded and all views true. -/
theorem latched_views {ι α : Type} (call : ι → PageProg D H α) (asserts : ι → Bool) :
    Pool.Views (T := T) (Latched.rules call asserts) (Guarded L root) (Sees L root) (sightStep L root)
      (guarantee L root) (fun m s => { s with due := asserts m }) (Sight.Calm L root) where
  own {t β c w b w' s} hg hs hΦ hstep := by
    cases c with
    | createPage =>
      obtain ⟨hnew, rfl⟩ := hstep
      refine ⟨⟨hg.alone, hg.rootID, Or.inr hg.created, hg.rootNode, hg.refers⟩, s, ⟨?_, rfl⟩,
        hs.latch, hs.data, hs.flag, hs.stays, hs.due⟩
      rintro rfl
      exact hnew hg.created
    | pinPage id mode skipLoad => exact hg.pinPage hs hstep
    | unpinPage id dirty => exact hg.unpinPage hs hΦ hstep
    | read id =>
      obtain ⟨hmem, rfl⟩ := hstep
      refine ⟨hg, s, ⟨fun e he => hg.refers id b e hmem he, ?_, rfl⟩, hs⟩
      intro e x hx hex
      rw [← hs.data id e x hx hex, hmem]
    | peek id f =>
      obtain rfl := hstep
      exact ⟨hg, s, rfl, hs⟩
    | write id d =>
      obtain rfl := hstep
      exact hg.write hs hΦ
    | header f =>
      obtain ⟨rfl, rfl⟩ := hstep
      exact hg.header hs hΦ
    | check b =>
      obtain rfl := hstep
      refine ⟨⟨hg.alone, hg.rootID, hg.created, hg.rootNode, hg.refers⟩, _, rfl, hs.latch, hs.data, hs.flag,
        hs.stays, ?_⟩
      exact (Function.update_self t false w.due).symm
    | raise e => exact b.elim
  others {t u β c w b w' s x} hu hg hs hΦ hstep hx := by
    cases c with
    | createPage =>
      obtain ⟨-, rfl⟩ := hstep
      exact ⟨hx.latch, hx.data, hx.flag, hx.stays, hx.due⟩
    | pinPage id mode skipLoad =>
      obtain ⟨e, -, -, rfl⟩ := hstep
      exact ⟨fun i => (Latched.setLatch_thread hu).trans (hx.latch i), hx.data, hx.flag, hx.stays, hx.due⟩
    | unpinPage id dirty =>
      obtain ⟨-, rfl⟩ := hstep
      exact ⟨fun i => (Latched.setLatch_thread hu).trans (hx.latch i), hx.data, hx.flag, hx.stays, hx.due⟩
    | read id =>
      obtain ⟨-, rfl⟩ := hstep
      exact hx
    | peek id f =>
      obtain rfl := hstep
      exact hx
    | write id d =>
      obtain rfl := hstep
      exact hs.write hg hu hx hΦ
    | header f =>
      obtain ⟨rfl, rfl⟩ := hstep
      exact hs.header hg hu hx hΦ
    | check b =>
      obtain rfl := hstep
      exact ⟨hx.latch, hx.data, hx.flag, hx.stays, hx.due.trans (Function.update_of_ne hu _ _).symm⟩
    | raise e => exact b.elim
  enter {t m w s} hg hs :=
    ⟨⟨hg.alone, hg.rootID, hg.created, hg.rootNode, hg.refers⟩, hs.latch, hs.data, hs.flag, hs.stays,
      (Function.update_self t (asserts m) w.due).symm⟩
  enter_others {t u m w x} hu hx :=
    ⟨hx.latch, hx.data, hx.flag, hx.stays, hx.due.trans (Function.update_of_ne hu _ _).symm⟩
  failed {t β c w s} hs hΦ hr := by
    cases c with
    | createPage => exact hΦ
    | pinPage id mode skipLoad => exact hΦ
    | raise e => exact hΦ
    | _ => exact absurd hr id

/-- What holds of the root page wherever the threads have come to: who is about to write it has it latched
exclusively, and an assert on the flag that is about to be evaluated is true. -/
structure RootSafe {ι α : Type} (L : TreeLayout D H) (root : PageId)
    (s : Pool ι (PageCmd D H) (Latched D H T) T α) : Prop where
  write : ∀ t d k, s.rest t = .call (.write root d) k → s.world.latch root t = some true
  assert : ∀ t b k, s.world.due t = true → s.rest t = .call (.check b) k → b = true
  rootNode : ∃ d, s.world.mem root = some d ∧ L.mayBeRoot d

/-- A tree that no thread is working on: the flag tells what the root page is, which is no child. -/
structure StandsAt (L : TreeLayout D H) (root : PageId) (mem : PageId → Option D) (created : Set PageId)
    (header : H) : Prop where
  rootID : L.rootID header = root
  created : root ∈ created
  rootNode : ∃ d, mem root = some d ∧ L.mayBeRoot d ∧ L.rootLeaf header = L.isLeaf d
  refers : ∀ id d e, mem id = some d → L.refers d e → e ≠ root

/-- Calls that keep the guarantee leave the root page safe, whatever their interleaving. -/
theorem rootSafe_of_calls {ι α : Type} {call : ι → PageProg D H α} {asserts : ι → Bool}
    (hcall : ∀ m (s : Sight D), s.Calm L root → Always (sightStep L root) (guarantee L root) (call m)
      { s with due := asserts m } fun _ s' => s'.Calm L root)
    {mem : PageId → Option D} {created : Set PageId} {header : H} (hstand : StandsAt L root mem created header)
    {op : T → ι} {s : Pool ι (PageCmd D H) (Latched D H T) T α}
    (hr : Pool.Reachable (Latched.rules call asserts) (Latched.started call asserts mem created header op) s) :
    RootSafe L root s := by
  have hnone : ∀ b, Sight.Calm L root (⟨fun _ => none, none, b⟩ : Sight D) := by
    intro b e d h
    cases h
  have hstart : Pool.Kept (Guarded L root) (Sees L root) (sightStep L root) (guarantee L root)
      (Sight.Calm L root) (Latched.started (T := T) call asserts mem created header op) := by
    refine ⟨⟨?_, hstand.rootID, hstand.created, ?_, hstand.refers⟩, ?_⟩
    · intro id t u h
      cases h
    · obtain ⟨d, hd, hmay, hflag⟩ := hstand.rootNode
      exact ⟨d, hd, hmay, fun _ => hflag⟩
    · intro t
      refine ⟨⟨fun _ => none, none, asserts (op t)⟩, ⟨fun _ => rfl, ?_, ?_, ?_, rfl⟩, ?_⟩
      · intro id e d h
        cases h
      · intro b h
        cases h
      · intro h
        cases h
      · exact hcall (op t) ⟨fun _ => none, none, false⟩ (hnone false)
  have hkept := hstart.reachable (latched_views call asserts) hcall hr
  refine ⟨?_, ?_, ?_⟩
  · intro t d k hc
    obtain ⟨v, hv, -, -, hroot⟩ := hkept.guarantee hc
    obtain ⟨-, x, hx⟩ := hroot rfl
    exact hv.latch_some hx
  · intro t b k hdue hc
    obtain ⟨v, hv, hΦ⟩ := hkept.guarantee hc
    exact hΦ (hv.due.trans hdue)
  · obtain ⟨d, hd, hmay, -⟩ := hkept.inv.rootNode
    exact ⟨d, hd, hmay⟩

end Guarantee

end BEpsilon
