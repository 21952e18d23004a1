import BEpsilon.Trees.Latches

/-!
# BEpsilon.Trees.LatchRules — rules for programs that mind the latches

`Minds` says that every command of a program keeps the guarantee that threads owe each other.  One rule for
each command, and what a pin, a write and a release leave of `Settled`: the flag is known to be right while
the root page is latched, and the assert on it is not to come.
-/

namespace BEpsilon

variable {D H α β σ : Type} (L : TreeLayout D H) (root : PageId)

/-- Started with the view `s`, the program keeps the guarantee and ends as `Q` says. -/
abbrev Minds (p : PageProg D H α) (s : Sight D) (Q : α → Sight D → Prop) : Prop :=
  Always (sightStep L root) (guarantee L root) p s Q

namespace Sight

structure Settled (s : Sight D) : Prop where
  calm : s.Calm L root
  due : s.due = false

/-- Settled, and the root page is not latched. -/
structure Below (s : Sight D) : Prop where
  away : s.held root = none
  due : s.due = false

/-- May this be the data that the thread reads in the page? -/
def Reads (s : Sight D) (id : PageId) (d : D) : Prop :=
  ∀ e x, s.held id = some (e, x) → e = true ∨ id = root → x = some d

variable {L root} {s : Sight D} {id id' : PageId} {e : Bool} {d x : D} {o : Option D}

theorem drop_held_self : (s.drop root id).held id = none := Function.update_self _ _ _

theorem drop_held_ne (h : id' ≠ id) : (s.drop root id).held id' = s.held id' := Function.update_of_ne h _ _

@[simp] theorem drop_due : (s.drop root id).due = s.due := rfl

@[simp] theorem hold_hold {e' : Bool} {o' : Option D} : (s.hold id e o).hold id e' o' = s.hold id e' o' := by
  simp [Sight.hold]

theorem put_self : (s.put id d).held id = some (true, some d) := hold_self

theorem put_ne (h : id' ≠ id) : (s.put id d).held id' = s.held id' := hold_ne h

theorem reads_of_held (h : s.held id = some (e, some x)) : s.Reads root id x := by
  intro e' y hy _
  rw [h] at hy
  obtain ⟨-, rfl⟩ := by simpa using hy
  rfl

/-- A page is latched that was not: it is another one than those latched before. -/
theorem ne_of_held {p : Bool × Option D} (h : s.held id = some p) (hnone : s.held id' = none) : id ≠ id' := by
  rintro rfl
  rw [hnone] at h
  cases h

theorem Calm.of_away (h : s.held root = none) : s.Calm L root := by
  intro e d he
  rw [h] at he
  cases he

theorem Below.settled (h : s.Below root) : s.Settled L root := ⟨.of_away h.away, h.due⟩

theorem Below.hold (h : s.Below root) (hid : id ≠ root) : (s.hold id e o).Below root :=
  ⟨(hold_ne (Ne.symm hid)).trans h.away, h.due⟩

theorem Below.put (h : s.Below root) (hid : id ≠ root) : (s.put id d).Below root := h.hold hid

theorem Below.drop (h : s.Below root) : (s.drop root id).Below root := by
  refine ⟨?_, h.due⟩
  by_cases hid : root = id
  · subst hid
    exact drop_held_self
  · rw [drop_held_ne hid]
    exact h.away

/-- The release of the root page. -/
theorem below_drop (hdue : s.due = false) : (s.drop root root).Below root := ⟨drop_held_self, hdue⟩

/-- After a pin of the root page. -/
theorem settled_pin (hdue : s.due = false) : ((s.hold root e (some x)).know (L.isLeaf x)).Settled L root := by
  refine ⟨?_, hdue⟩
  intro e' d' he
  rw [know_held, hold_self] at he
  obtain ⟨-, rfl⟩ := by simpa using he
  exact ⟨x, rfl, rfl⟩

theorem Settled.hold (h : s.Settled L root) (hid : id ≠ root) : (s.hold id e o).Settled L root := by
  refine ⟨?_, h.due⟩
  intro e' d' he
  rw [hold_ne (Ne.symm hid)] at he
  exact h.calm e' d' he

theorem Settled.put (h : s.Settled L root) (hid : id ≠ root) : (s.put id d).Settled L root := h.hold hid

/-- The page keeps the node type that was read. -/
theorem Settled.rewrite (h : s.Settled L root) (hs : s.held id = some (e, o)) (hx : s.Reads root id x)
    (hd : L.isLeaf d = L.isLeaf x) : (s.hold id e (some d)).Settled L root := by
  by_cases hid : id = root
  · subst hid
    refine ⟨?_, h.due⟩
    intro e' d' he
    obtain rfl := hx e o hs (.inr rfl)
    obtain ⟨y, hy, hflag⟩ := h.calm e (some x) hs
    obtain rfl := Option.some.inj hy
    rw [hold_self] at he
    obtain ⟨rfl, rfl⟩ := by simpa using he
    exact ⟨d, rfl, hd ▸ hflag⟩
  · exact h.hold hid

theorem Settled.drop (h : s.Settled L root) : (s.drop root id).Settled L root := by
  by_cases hid : id = root
  · subst hid
    exact (below_drop h.due).settled
  · refine ⟨?_, h.due⟩
    intro e' d' he
    rw [drop_held_ne (Ne.symm hid)] at he
    obtain ⟨x, hx, hflag⟩ := h.calm e' d' he
    refine ⟨x, hx, ?_⟩
    simp only [Sight.drop, hid, false_and, if_false]
    exact hflag

end Sight

/-! ### The rules -/

variable {L root} {p : PageProg D H α} {s : Sight D} {id : PageId} {e : Bool} {x : Option D}
  {Q : α → Sight D → Prop}

theorem minds_createPage {f : PageId → PageProg D H α} (hs : s.Settled L root)
    (h : ∀ id, id ≠ root → Minds L root (f id) s Q) : Minds L root (PageProg.createPage.bind f) s Q := by
  refine always_call hs.calm ?_
  rintro id _ ⟨hid, rfl⟩
  exact h id hid

theorem minds_pinPage {mode : LatchMode D} {skipLoad : Bool} {f : Unit → PageProg D H α} (hid : id ≠ root)
    (hs : s.Settled L root)
    (h : s.held id = none → ∀ e d, Latched.Grants mode e → Minds L root (f ()) (s.hold id e d) Q) :
    Minds L root ((PageProg.pinPage id mode skipLoad).bind f) s Q := by
  refine always_call hs.calm ?_
  rintro ⟨⟩ s' ⟨hnone, e, hgrants, d, hs'⟩
  rw [if_neg hid] at hs'
  subst hs'
  exact h hnone e d hgrants

theorem minds_pinFixed {skipLoad : Bool} {f : Unit → PageProg D H α} (hid : id ≠ root) (hs : s.Settled L root)
    (h : s.held id = none → ∀ d, Minds L root (f ()) (s.hold id e d) Q) :
    Minds L root ((PageProg.pinPage id (.fixed e) skipLoad).bind f) s Q := by
  refine minds_pinPage hid hs ?_
  rintro hnone e' d rfl
  exact h hnone d

/-- A pin of the root page: the flag is right from now on. -/
theorem minds_pinRoot {skipLoad : Bool} {f : Unit → PageProg D H α} (hs : s.Calm L root)
    (h : s.held root = none → ∀ x, L.mayBeRoot x → (∀ b, s.flag = some b → L.isLeaf x = b) →
      Minds L root (f ()) ((s.hold root e (some x)).know (L.isLeaf x)) Q) :
    Minds L root ((PageProg.pinPage root (.fixed e) skipLoad).bind f) s Q := by
  refine always_call hs ?_
  rintro ⟨⟩ s' ⟨hnone, e', rfl, d, hs'⟩
  rw [if_pos rfl] at hs'
  obtain ⟨x, rfl, hmay, hflag, rfl⟩ := hs'
  exact h hnone x hmay hflag

theorem minds_unpinPage {dirty : Bool} {f : Unit → PageProg D H α} (hs : s.Settled L root)
    (h : Minds L root (f ()) (s.drop root id) Q) :
    Minds L root ((PageProg.unpinPage id dirty).bind f) s Q := by
  refine always_call (fun _ => hs.calm) ?_
  rintro ⟨⟩ _ ⟨-, rfl⟩
  exact h

/-- `unpinPage` at the end of a block. -/
theorem minds_unpinPage_last {dirty : Bool} {Q : Unit → Sight D → Prop} (hs : s.Settled L root)
    (hQ : Q () (s.drop root id)) : Minds L root (PageProg.unpinPage id dirty) s Q := by
  have h : Minds L root ((PageProg.unpinPage id dirty).bind .ret) s Q := minds_unpinPage hs (always_ret hQ)
  rwa [Prog.bind_ret] at h

theorem minds_read {f : D → PageProg D H α}
    (h : ∀ d, (∀ e, L.refers d e → e ≠ root) → s.Reads root id d → Minds L root (f d) s Q) :
    Minds L root ((PageProg.read id).bind f) s Q := by
  refine always_call trivial ?_
  rintro d _ ⟨hrefers, hreads, rfl⟩
  exact h d hrefers hreads

theorem minds_peek {g : D → Bool} {f : Bool → PageProg D H α} (h : ∀ b, Minds L root (f b) s Q) :
    Minds L root ((PageProg.peek id g).bind f) s Q := by
  refine always_call trivial ?_
  rintro b _ rfl
  exact h b

theorem minds_write {d : D} {f : Unit → PageProg D H α} (hs : s.held id = some (e, x))
    (hroot : id = root → e = true ∧ L.mayBeRoot d) (hrefers : ∀ e, L.refers d e → e ≠ root)
    (h : Minds L root (f ()) (s.hold id e (some d)) Q) : Minds L root ((PageProg.write id d).bind f) s Q := by
  refine always_call ⟨by simp [hs], hrefers, ?_⟩ ?_
  · intro hid
    obtain ⟨rfl, hmay⟩ := hroot hid
    exact ⟨hmay, x, hs⟩
  · rintro ⟨⟩ _ ⟨e', x', hs', rfl⟩
    obtain ⟨rfl, rfl⟩ := by simpa [hs] using hs'
    exact h

/-- `write` at the end of a block. -/
theorem minds_write_last {d : D} {Q : Unit → Sight D → Prop} (hs : s.held id = some (e, x))
    (hroot : id = root → e = true ∧ L.mayBeRoot d) (hrefers : ∀ e, L.refers d e → e ≠ root)
    (hQ : Q () (s.hold id e (some d))) : Minds L root (PageProg.write id d) s Q := by
  have h : Minds L root ((PageProg.write id d).bind .ret) s Q := minds_write hs hroot hrefers (always_ret hQ)
  rwa [Prog.bind_ret] at h

/-- An access to the header that changes neither the id of the root page nor the flag. -/
theorem minds_header {g : H → H} {f : H → PageProg D H α} (hg : ∀ h, L.rootID (g h) = L.rootID h ∧
      L.rootLeaf (g h) = L.rootLeaf h) (hs : s.Calm L root)
    (h : ∀ (header : H) (s' : Sight D), L.rootID header = root → (∀ b, s.flag = some b → L.rootLeaf header = b) →
      s'.held = s.held → s'.due = s.due → s'.Calm L root →
      (L.rootLeaf header = false → s'.flag = some false) → Minds L root (f header) s' Q) :
    Minds L root ((PageProg.modifyHeader g).bind f) s Q := by
  refine always_call (fun h => ⟨(hg h).1, .inl (hg h).2⟩) ?_
  rintro header s' ⟨hID, hflag, rfl⟩
  refine h header _ hID hflag rfl rfl ?_ ?_
  · intro e d he
    obtain ⟨x, hx, hx'⟩ := hs e d he
    refine ⟨x, hx, ?_⟩
    dsimp only
    split
    next hleaf =>
      rw [(hg header).2, hflag _ hx'] at hleaf
      rw [hleaf]
    next => exact hx'
  · intro hleaf
    dsimp only
    rw [if_pos ((hg header).2.trans hleaf)]

theorem minds_getHeader {f : H → PageProg D H α} (hs : s.Calm L root)
    (h : ∀ (header : H) (s' : Sight D), L.rootID header = root → (∀ b, s.flag = some b → L.rootLeaf header = b) →
      s'.held = s.held → s'.due = s.due → s'.Calm L root →
      (L.rootLeaf header = false → s'.flag = some false) → Minds L root (f header) s' Q) :
    Minds L root (PageProg.getHeader.bind f) s Q :=
  minds_header (fun _ => ⟨rfl, rfl⟩) hs h

/-- While the root page is latched, the header has no news. -/
theorem minds_getHeader_held {f : H → PageProg D H α} (hs : s.Calm L root) (hheld : s.held root = some (e, x))
    (h : ∀ header, L.rootID header = root → (∀ b, s.flag = some b → L.rootLeaf header = b) →
      Minds L root (f header) s Q) : Minds L root (PageProg.getHeader.bind f) s Q := by
  refine always_call (fun h => ⟨rfl, .inl rfl⟩) ?_
  rintro header s' ⟨hID, hflag, rfl⟩
  obtain ⟨y, -, hy⟩ := hs e x hheld
  have hsame : (if L.rootLeaf header = false then some false else s.flag) = s.flag := by
    split
    next hleaf => rw [hy, ← hflag _ hy, hleaf]
    next => rfl
  dsimp only
  rw [hsame]
  exact h header hID hflag

/-- Clearing the flag, below the exclusive latch of the root page. -/
theorem minds_clearFlag {g : H → H} {f : H → PageProg D H α}
    (hg : ∀ h, L.rootID (g h) = L.rootID h ∧ L.rootLeaf (g h) = false) (hs : s.held root = some (true, x))
    (h : ∀ header, Minds L root (f header) (s.know false) Q) :
    Minds L root ((PageProg.modifyHeader g).bind f) s Q := by
  refine always_call (fun h => ⟨(hg h).1, .inr ⟨(hg h).2, x, hs⟩⟩) ?_
  rintro header s' ⟨-, -, rfl⟩
  rw [if_pos (hg header).2]
  exact h header

/-- An assert after the one on the flag. -/
theorem minds_check {b : Bool} {f : Unit → PageProg D H α} (hdue : s.due = false) (h : Minds L root (f ()) s Q) :
    Minds L root ((PageProg.check b).bind f) s Q := by
  refine always_call (fun h => absurd h (by simp [hdue])) ?_
  rintro ⟨⟩ _ rfl
  rwa [← hdue]

/-- The assert on the flag. -/
theorem minds_checkFlag {b : Bool} {f : Unit → PageProg D H α} (hb : b = true)
    (h : Minds L root (f ()) { s with due := false } Q) : Minds L root ((PageProg.check b).bind f) s Q := by
  refine always_call (fun _ => hb) ?_
  rintro ⟨⟩ _ rfl
  exact h

/-- The answer of a call. -/
theorem minds_answer {f : α → β} (hp : Minds L root p s fun _ s' => s'.Calm L root) :
    Minds L root (p.bind fun a => .ret (f a)) s fun _ s' => s'.Calm L root :=
  always_bind (hp.mono fun _ _ h => always_ret h)

end BEpsilon
