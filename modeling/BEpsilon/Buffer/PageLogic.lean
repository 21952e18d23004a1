import BEpsilon.Buffer.PageProg
import BEpsilon.Lib.Prog
import Mathlib.Data.List.Basic

/-!
# BEpsilon.Buffer.PageLogic — rules for programs on the ideal store

One rule for each command of `PageCmd`, on worlds written out as `⟨mem, created, header, pins, recent,
kept⟩`, in the form in which a `do` block meets them: the command followed by the rest of the block.
-/

namespace BEpsilon

namespace PageWorld

variable {D H α : Type} {R : PageRules} {mem : PageId → Option D} {created : ℕ} {header : H}
  {pins pins' : List (PageId × Option D)} {recent : List PageId} {kept : Prop} {id : PageId}
  {Q : α → PageWorld D H → Prop}

theorem runs_createPage {f : PageId → PageProg D H α}
    (h : Runs (handler R) (f (R.ids created)) ⟨mem, created + 1, header, pins, recent, kept⟩ Q) :
    Runs (handler R) (PageProg.createPage.bind f) ⟨mem, created, header, pins, recent, kept⟩ Q :=
  runs_call rfl h

theorem runs_pinPage {mode : LatchMode D} {skipLoad : Bool} {f : Unit → PageProg D H α}
    (hpin : ∀ p ∈ pins, p.1 ≠ id) (hlim : ∀ n ∈ R.limit, pins.length < n)
    (hmem : (mem id).isSome = !skipLoad) (hcr : ∃ i < created, R.ids i = id)
    (h : Runs (handler R) (f ()) ⟨mem, created, header, (id, mem id) :: pins, [], kept⟩ Q) :
    Runs (handler R) ((PageProg.pinPage id mode skipLoad).bind f)
      ⟨mem, created, header, pins, recent, kept⟩ Q := by
  have h₁ : (pins.any fun p => p.1 == id) = false := by
    simpa [List.any_eq_false] using hpin
  have h₂ : R.limit.any (fun n => decide (n ≤ pins.length)) = false := by
    cases hl : R.limit with
    | none => rfl
    | some n => simpa using hlim n (by simp [hl])
  have h₃ : ((mem id).isSome == skipLoad) = false := by
    rw [hmem]
    cases skipLoad <;> rfl
  have h₄ : isCreated R (⟨mem, created, header, pins, recent, kept⟩ : PageWorld D H) id = true := by
    simpa [isCreated] using hcr
  refine runs_call (b := ()) ?_ h
  simp [handler, h₁, h₂, h₃, h₄]

theorem runs_unpinPage {dirty : Bool} {s : Option D} {f : Unit → PageProg D H α}
    (hfind : pins.find? (fun p => p.1 == id) = some (id, s))
    (herase : pins.eraseP (fun p => p.1 == id) = pins')
    (h : Runs (handler R) (f ()) ⟨mem, created, header, pins', id :: recent,
      kept ∧ (mem id).isSome ∧ (dirty = true ∨ mem id = s)⟩ Q) :
    Runs (handler R) ((PageProg.unpinPage id dirty).bind f)
      ⟨mem, created, header, pins, recent, kept⟩ Q := by
  refine runs_call (b := ()) ?_ h
  simp [handler, hfind, herase]

/-- `unpinPage` of a page that is released dirty or unchanged. -/
theorem runs_unpinPage_kept {dirty : Bool} {s : Option D} {f : Unit → PageProg D H α}
    (hfind : pins.find? (fun p => p.1 == id) = some (id, s))
    (herase : pins.eraseP (fun p => p.1 == id) = pins')
    (hmem : (mem id).isSome) (hd : dirty = true ∨ mem id = s)
    (h : Runs (handler R) (f ()) ⟨mem, created, header, pins', id :: recent, kept⟩ Q) :
    Runs (handler R) ((PageProg.unpinPage id dirty).bind f)
      ⟨mem, created, header, pins, recent, kept⟩ Q := by
  refine runs_unpinPage hfind herase ?_
  rwa [show (kept ∧ (mem id).isSome = true ∧ (dirty = true ∨ mem id = s)) = kept by
    simp [hmem, hd]]

/-- `unpinPage` of the page that was pinned last. -/
theorem runs_unpin_head {dirty : Bool} {s : Option D} {f : Unit → PageProg D H α}
    (hmem : (mem id).isSome) (hd : dirty = true ∨ mem id = s)
    (h : Runs (handler R) (f ()) ⟨mem, created, header, pins, id :: recent, kept⟩ Q) :
    Runs (handler R) ((PageProg.unpinPage id dirty).bind f)
      ⟨mem, created, header, (id, s) :: pins, recent, kept⟩ Q :=
  runs_unpinPage_kept (s := s) (by simp) (by simp) hmem hd h

/-- `unpinPage` of the only pinned page, at the end of a block. -/
theorem runs_unpin_last {dirty : Bool} {s : Option D} {Q : Unit → PageWorld D H → Prop}
    (hmem : (mem id).isSome) (hd : dirty = true ∨ mem id = s)
    (h : Q () ⟨mem, created, header, [], id :: recent, kept⟩) :
    Runs (handler R) (PageProg.unpinPage id dirty)
      ⟨mem, created, header, [(id, s)], recent, kept⟩ Q := by
  have hr : Runs (handler R) ((PageProg.unpinPage id dirty).bind .ret)
      ⟨mem, created, header, [(id, s)], recent, kept⟩ Q := runs_unpin_head hmem hd (runs_ret h)
  rwa [Prog.bind_ret] at hr

/-- `unpinPage` of the page that was pinned before the last one. -/
theorem runs_unpin_second {dirty : Bool} {s : Option D} {a : PageId × Option D}
    {f : Unit → PageProg D H α} (ha : a.1 ≠ id) (hmem : (mem id).isSome)
    (hd : dirty = true ∨ mem id = s)
    (h : Runs (handler R) (f ()) ⟨mem, created, header, a :: pins, id :: recent, kept⟩ Q) :
    Runs (handler R) ((PageProg.unpinPage id dirty).bind f)
      ⟨mem, created, header, a :: (id, s) :: pins, recent, kept⟩ Q :=
  runs_unpinPage_kept (s := s) (by simp [ha]) (by simp [ha]) hmem hd h

/-- `unpinPage` of the third page from the top. -/
theorem runs_unpin_third {dirty : Bool} {s : Option D} {a b : PageId × Option D}
    {f : Unit → PageProg D H α} (ha : a.1 ≠ id) (hb : b.1 ≠ id) (hmem : (mem id).isSome)
    (hd : dirty = true ∨ mem id = s)
    (h : Runs (handler R) (f ()) ⟨mem, created, header, a :: b :: pins, id :: recent, kept⟩ Q) :
    Runs (handler R) ((PageProg.unpinPage id dirty).bind f)
      ⟨mem, created, header, a :: b :: (id, s) :: pins, recent, kept⟩ Q :=
  runs_unpinPage_kept (s := s) (by simp [ha, hb]) (by simp [ha, hb]) hmem hd h

theorem runs_read {d : D} {f : D → PageProg D H α} (hm : mem id = some d)
    (hr : (∃ s, (id, s) ∈ pins) ∨ id ∈ recent)
    (h : Runs (handler R) (f d) ⟨mem, created, header, pins, recent, kept⟩ Q) :
    Runs (handler R) ((PageProg.read id).bind f) ⟨mem, created, header, pins, recent, kept⟩ Q := by
  have hr' : referenced (⟨mem, created, header, pins, recent, kept⟩ : PageWorld D H) id = true := by
    simpa [referenced] using hr
  refine runs_call (b := d) ?_ h
  simp [handler, hm, hr']

theorem runs_peek {d : D} {g : D → Bool} {f : Bool → PageProg D H α} (hm : mem id = some d)
    (hr : (∃ s, (id, s) ∈ pins) ∨ id ∈ recent)
    (h : Runs (handler R) (f (g d)) ⟨mem, created, header, pins, recent, kept⟩ Q) :
    Runs (handler R) ((PageProg.peek id g).bind f) ⟨mem, created, header, pins, recent, kept⟩ Q := by
  have hr' : referenced (⟨mem, created, header, pins, recent, kept⟩ : PageWorld D H) id = true := by
    simpa [referenced] using hr
  refine runs_call (b := g d) ?_ h
  simp [handler, hm, hr']

theorem runs_write {d : D} {f : Unit → PageProg D H α} (hr : ∃ s, (id, s) ∈ pins)
    (h : Runs (handler R) (f ())
      ⟨Function.update mem id (some d), created, header, pins, recent, kept⟩ Q) :
    Runs (handler R) ((PageProg.write id d).bind f) ⟨mem, created, header, pins, recent, kept⟩ Q := by
  have hr' : (pins.any fun p => p.1 == id) = true := by
    obtain ⟨s, hs⟩ := hr
    exact List.any_eq_true.mpr ⟨_, hs, by simp⟩
  refine runs_call (b := ()) ?_ h
  simp [handler, hr']

theorem runs_getHeader {f : H → PageProg D H α}
    (h : Runs (handler R) (f header) ⟨mem, created, header, pins, recent, kept⟩ Q) :
    Runs (handler R) (PageProg.getHeader.bind f) ⟨mem, created, header, pins, recent, kept⟩ Q :=
  runs_call rfl h

theorem runs_modifyHeader {g : H → H} {f : H → PageProg D H α}
    (h : Runs (handler R) (f header) ⟨mem, created, g header, pins, recent, kept⟩ Q) :
    Runs (handler R) ((PageProg.modifyHeader g).bind f)
      ⟨mem, created, header, pins, recent, kept⟩ Q :=
  runs_call rfl h

theorem runs_check {b : Bool} {f : Unit → PageProg D H α} (hb : R.asserts = true → b = true)
    (h : Runs (handler R) (f ()) ⟨mem, created, header, pins, recent, kept⟩ Q) :
    Runs (handler R) ((PageProg.check b).bind f) ⟨mem, created, header, pins, recent, kept⟩ Q := by
  refine runs_call (b := ()) ?_ h
  cases hA : R.asserts <;> simp_all [handler]

/-! ### Many pins -/

/-- The pages `l` are pinned. -/
def PinsAre (pins : List (PageId × Option D)) (l : List PageId) : Prop := (pins.map Prod.fst).Perm l

variable {l l' : List PageId}

theorem PinsAre.perm (hp : PinsAre pins l) (h : l.Perm l') : PinsAre pins l' := List.Perm.trans hp h

theorem PinsAre.cons (hp : PinsAre pins l) (id : PageId) (s : Option D) :
    PinsAre ((id, s) :: pins) (id :: l) := List.Perm.cons id hp

theorem PinsAre.pinned (hp : PinsAre pins l) (h : id ∈ l) : ∃ s, (id, s) ∈ pins := by
  obtain ⟨p, hm, rfl⟩ := List.mem_map.mp (hp.mem_iff.mpr h)
  exact ⟨p.2, hm⟩

theorem PinsAre.ne (hp : PinsAre pins l) (h : id ∉ l) : ∀ p ∈ pins, p.1 ≠ id := by
  rintro p hm rfl
  exact h (hp.mem_iff.mp (List.mem_map_of_mem hm))

/-- A pinned page can be released. -/
theorem PinsAre.erase (hp : PinsAre pins (id :: l)) :
    (∃ s, pins.find? (fun p => p.1 == id) = some (id, s)) ∧
      PinsAre (pins.eraseP fun p => p.1 == id) l := by
  obtain ⟨s, hs⟩ := hp.pinned List.mem_cons_self
  have hsome : (pins.find? fun p => p.1 == id).isSome := by
    rw [List.find?_isSome]
    exact ⟨_, hs, by simp⟩
  obtain ⟨⟨id', s'⟩, hf⟩ := Option.isSome_iff_exists.mp hsome
  have hid : id' = id := by simpa using List.find?_some hf
  refine ⟨⟨s', by rw [hf, hid]⟩, ?_⟩
  have hmap : (pins.eraseP fun p => p.1 == id).map Prod.fst = (pins.map Prod.fst).erase id := by
    rw [List.erase_eq_eraseP', List.eraseP_map]
    rfl
  rw [PinsAre, hmap]
  have he := List.Perm.erase id hp
  rwa [List.erase_cons_head] at he

/-- `unpinPage` of one of many pages, released dirty or unchanged. -/
theorem runs_unpin_one {dirty : Bool} {f : Unit → PageProg D H α} (hp : PinsAre pins (id :: l))
    (hmem : (mem id).isSome) (hd : ∀ s, (id, s) ∈ pins → dirty = true ∨ mem id = s)
    (h : ∀ pins', PinsAre pins' l → pins' ⊆ pins →
      Runs (handler R) (f ()) ⟨mem, created, header, pins', id :: recent, kept⟩ Q) :
    Runs (handler R) ((PageProg.unpinPage id dirty).bind f)
      ⟨mem, created, header, pins, recent, kept⟩ Q := by
  obtain ⟨⟨s, hf⟩, he⟩ := hp.erase
  exact runs_unpinPage_kept hf rfl hmem (hd s (List.mem_of_find?_eq_some hf))
    (h _ he List.eraseP_subset)

/-- `unpinPage` of one of many pages, released dirty. -/
theorem runs_release {f : Unit → PageProg D H α} (hp : PinsAre pins (id :: l))
    (hmem : (mem id).isSome)
    (h : ∀ pins', PinsAre pins' l →
      Runs (handler R) (f ()) ⟨mem, created, header, pins', id :: recent, kept⟩ Q) :
    Runs (handler R) ((PageProg.unpinPage id true).bind f)
      ⟨mem, created, header, pins, recent, kept⟩ Q :=
  runs_unpin_one hp hmem (fun _ _ => .inl rfl) fun pins' hp' _ => h pins' hp'

end PageWorld

/-! ### Runs under any rules -/

section Concludes

variable {D H α : Type} {R : PageRules} {p : PageProg D H α} {w : PageWorld D H} {Q : α → PageWorld D H → Prop}

open PageWorld

/-- What is needed only where asserts are compiled in. -/
theorem PageRules.off (h : R.asserts = false) {P : Prop} : R.asserts = true → P :=
  fun hon => absurd (h.symm.trans hon) Bool.false_ne_true

/-- The rules without asserts and with room for every page. -/
def PageRules.lenient (R : PageRules) : PageRules := { R with asserts := false, limit := none }

/-- Where nothing stops it `p` returns, and whenever it returns it ends as `Q` says. -/
def Concludes (R : PageRules) (p : PageProg D H α) (w : PageWorld D H) (Q : α → PageWorld D H → Prop) : Prop :=
  Runs (handler R.lenient) p w Q ∧ ∀ a w', Returns (handler R) p w a w' → Q a w'

theorem handler_lenient {β : Type} {c : PageCmd D H β} {b : β} {w₁ : PageWorld D H}
    (hc : handler R β c w = .ok b w₁) : handler R.lenient β c w = .ok b w₁ := by
  cases c with
  | pinPage id mode skipLoad =>
    simp only [handler] at hc ⊢
    split at hc
    · cases hc
    next hpin =>
      split at hc
      · cases hc
      next hlim =>
        rw [if_neg hpin, if_neg (by simp [PageRules.lenient])]
        exact hc
  | check b =>
    simp only [handler] at hc ⊢
    split at hc
    · cases hc
    · simpa [PageRules.lenient] using hc
  | createPage => exact hc
  | unpinPage => exact hc
  | read => exact hc
  | peek => exact hc
  | write => exact hc
  | header => exact hc
  | raise => exact hc

theorem Runs.concludes (hp : Runs (handler R.lenient) p w Q) : Concludes R p w Q := by
  refine ⟨hp, ?_⟩
  intro a w' hr
  exact (hr.weaken fun _ _ _ _ _ hc => handler_lenient hc).of_runs hp

end Concludes

end BEpsilon
