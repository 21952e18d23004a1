import BEpsilon.File.ThreadsInv

/-!
# BEpsilon.File.ThreadsStep — every step keeps the invariant

One lemma for each kind of step: the four operations on mutexes, then the code of each phase.  The code
uses that a thread with the mutex of a segment is alone with it, and that a thread with the manager's
mutex is alone with `freeSegments`.
-/

namespace BEpsilon.File

open SegmentManager

variable {B : BlockSize} {σ : World} {segs : List Segment} {chain : ℕ → List ℕ} {t u i b pick : ℕ}
  {p ph : Phase} {m' : SegmentManager}

/-- A fact of the phases after thread `t` went on. -/
theorem attr_move {α : Type} (a : Phase → α) (ths : ℕ → Phase) (t : ℕ) (ph : Phase) :
    (fun u => a (Function.update ths t ph u)) = Function.update (fun u => a (ths u)) t (a ph) := by
  funext u
  by_cases hut : u = t
  · subst hut
    rw [Function.update_self, Function.update_self]
  · rw [Function.update_of_ne hut, Function.update_of_ne hut]

/-- A fact that the step does not change. -/
theorem attr_keep {α : Type} (a : Phase → α) {ths : ℕ → Phase} (h : a ph = a (ths t)) :
    Function.update (fun u => a (ths u)) t (a ph) = fun u => a (ths u) := by
  rw [h]
  exact Function.update_eq_self t fun u => a (ths u)

/-- Two phases that differ in the mutexes alone. -/
structure Phase.Alike (p q : Phase) : Prop where
  newSegment : q.newSegment = p.newSegment
  picks : q.picks = p.picks
  takes : q.takes = p.takes
  returns : q.returns = p.returns
  owns : q.owns = p.owns
  notFailed : ∀ e, q ≠ .failed e

/-- The invariant after thread `t` went on, from what it is for each part. -/
theorem sound_move (h : Sound B σ segs chain) {main' : Option ℕ} {locks' : ℕ → Option ℕ}
    {blocks' : Multiset (ℕ × ℕ)} {segs' : List Segment} {chain' : ℕ → List ℕ}
    (shape : Shape B m'.file m'.header segs' chain') (few : segs'.length < segmentLimit)
    (locks : Locks segs'.length main' locks'
      (Function.update (fun u => (σ.threads u).holdsMain) t ph.holdsMain)
      (Function.update (fun u => (σ.threads u).segmentHeld) t ph.segmentHeld))
    (free : Free m'.freeSegments segs' (Function.update (fun u => (σ.threads u).takes) t ph.takes)
      (Function.update (fun u => (σ.threads u).returns) t ph.returns)
      (Function.update (fun u => (σ.threads u).picks) t ph.picks))
    (inits : Inits B m'.segments segs'
      (Function.update (fun u => (σ.threads u).newSegment) t ph.newSegment)
      (Function.update (fun u => (σ.threads u).uses) t ph.uses))
    (owned : Owned segs' chain' blocks' (Function.update (fun u => (σ.threads u).owns) t ph.owns))
    (failed : ∀ e, ph = .failed e → e = .badConversion) :
    Sound B ⟨m', main', locks', Function.update σ.threads t ph, blocks'⟩ segs' chain' := by
  rw [← attr_move] at locks free inits owned
  rw [← attr_move] at locks free inits
  rw [← attr_move] at free
  refine ⟨shape, few, locks, free, inits, owned, fun u e hu => ?_⟩
  by_cases hut : u = t
  · subst hut
    dsimp only at hu
    rw [Function.update_self] at hu
    exact failed e hu
  · dsimp only at hu
    rw [Function.update_of_ne hut] at hu
    exact h.failed u e hu

namespace Sound

/-- A thread that has the mutex of a segment is alone with it. -/
theorem alone (hheld : ∀ u, u ≠ t → (σ.threads u).segmentHeld ≠ some i) :
    Free.Alone (fun u => (σ.threads u).takes) (fun u => (σ.threads u).returns) t i :=
  fun u hu => ⟨fun htk => hheld u hu (Phase.segmentHeld_of_takes htk),
    fun hrt => hheld u hu (Phase.segmentHeld_of_returns hrt)⟩

theorem other (h : Sound B σ segs chain) (ht : (σ.threads t).segmentHeld = some i) :
    ∀ u, u ≠ t → (σ.threads u).segmentHeld ≠ some i :=
  fun _ hu he => hu (h.locks.only ht he)

/-! ## Mutexes -/

theorem call (h : Sound B σ segs chain) {q : ℕ × ℕ} (hph : σ.threads t = .idle) (hq : q ∈ σ.blocks) :
    Sound B { σ.move t (.called (getIndexFromID (idOf q)) (getBlockFromID (idOf q))) with
      blocks := σ.blocks.erase q } segs chain := by
  have hrange := h.owned.range q ((h.owned.used q).mpr (.inl hq))
  have hidx : getIndexFromID (idOf q) = q.1 := index_packID_of_lt hrange.1 hrange.2
  have hblk : getBlockFromID (idOf q) = q.2 := block_packID_of_lt hrange.1 hrange.2
  have hown : (σ.threads t).owns = none := by
    rw [hph]
    rfl
  rw [hidx, hblk]
  refine sound_move h h.shape h.few ?_ ?_ ?_ (h.owned.call hown hq) fun e he => nomatch he
  · rw [attr_keep Phase.holdsMain (by rw [hph]; rfl), attr_keep Phase.segmentHeld (by rw [hph]; rfl)]
    exact h.locks
  · rw [attr_keep Phase.takes (by rw [hph]; rfl), attr_keep Phase.returns (by rw [hph]; rfl),
      attr_keep Phase.picks (by rw [hph]; rfl)]
    exact h.free
  · rw [attr_keep Phase.newSegment (by rw [hph]; rfl), attr_keep Phase.uses (by rw [hph]; rfl)]
    exact h.inits

/-- A step that changes nothing but who has the mutexes. -/
theorem relock (h : Sound B σ segs chain) {main' : Option ℕ} {locks' : ℕ → Option ℕ}
    (ha : (σ.threads t).Alike ph)
    (locks : Locks segs.length main' locks'
      (Function.update (fun u => (σ.threads u).holdsMain) t ph.holdsMain)
      (Function.update (fun u => (σ.threads u).segmentHeld) t ph.segmentHeld))
    (inits : Inits B σ.manager.segments segs (fun u => (σ.threads u).newSegment)
      (Function.update (fun u => (σ.threads u).uses) t ph.uses)) :
    Sound B ⟨σ.manager, main', locks', Function.update σ.threads t ph, σ.blocks⟩ segs chain := by
  refine sound_move h h.shape h.few locks ?_ ?_ ?_ fun e he => absurd he (ha.notFailed e)
  · rw [attr_keep Phase.takes ha.takes, attr_keep Phase.returns ha.returns, attr_keep Phase.picks ha.picks]
    exact h.free
  · rw [attr_keep Phase.newSegment ha.newSegment]
    exact inits
  · rw [attr_keep Phase.owns ha.owns]
    exact h.owned

theorem lockMain (h : Sound B σ segs chain) (hph : (σ.threads t).lockMain = some ph)
    (hfree : σ.main = none) : Sound B { σ.move t ph with main := some t } segs chain := by
  have hl := h.locks
  rw [hfree] at hl
  generalize hp : σ.threads t = p at hph
  have hsame : p.Alike ph ∧ ph.segmentHeld = p.segmentHeld ∧ ph.uses = p.uses := by
    cases p with
    | idle | called =>
      obtain rfl := Option.some.inj hph
      exact ⟨⟨rfl, rfl, rfl, rfl, rfl, fun _ => nofun⟩, rfl, rfl⟩
    | _ => exact nomatch hph
  subst hp
  obtain ⟨ha, hheld, huses⟩ := hsame
  refine h.relock ha ?_ ?_
  · rw [attr_keep Phase.segmentHeld hheld]
    exact hl.lockMain t _
  · rw [attr_keep Phase.uses huses]
    exact h.inits

theorem unlockMain (h : Sound B σ segs chain) (hph : (σ.threads t).unlockMain = some ph) :
    Sound B { σ.move t ph with main := none } segs chain := by
  generalize hp : σ.threads t = p at hph
  have hsame : p.Alike ph ∧ ph.segmentHeld = p.segmentHeld ∧ ph.uses = p.uses ∧
      p.holdsMain = true ∧ ph.holdsMain = false := by
    cases p with
    | marked | added | deletingMarked =>
      obtain rfl := Option.some.inj hph
      exact ⟨⟨rfl, rfl, rfl, rfl, rfl, fun _ => nofun⟩, rfl, rfl, rfl, rfl⟩
    | _ => exact nomatch hph
  subst hp
  obtain ⟨ha, hheld, huses, hmain, hmain'⟩ := hsame
  refine h.relock ha ?_ ?_
  · rw [attr_keep Phase.segmentHeld hheld, hmain']
    exact h.locks.unlockMain hmain
  · rw [attr_keep Phase.uses huses]
    exact h.inits

/-- The segment that a thread is waiting for exists. -/
theorem exists_segment (h : Sound B σ segs chain) (hph : (σ.threads t).lockSegment = some (i, ph)) :
    ∃ s, segs[i]? = some s := by
  generalize hp : σ.threads t = p at hph
  cases p with
  | chosen j =>
    obtain ⟨rfl, -⟩ := Prod.mk.inj (Option.some.inj hph)
    have hlt := h.free.lt j (h.free.pick t j (by rw [hp]; rfl))
    exact ⟨_, List.getElem?_eq_getElem hlt⟩
  | deletingChosen j b =>
    obtain ⟨rfl, -⟩ := Prod.mk.inj (Option.some.inj hph)
    obtain ⟨s, hs, -⟩ := (h.owned.used (j, b)).mpr (.inr ⟨t, by rw [hp]; rfl⟩)
    exact ⟨s, hs⟩
  | _ => exact nomatch hph

theorem lockSegment (h : Sound B σ segs chain) (hph : (σ.threads t).lockSegment = some (i, ph))
    (hfree : σ.locks i = none) :
    Sound B { σ.move t ph with locks := Function.update σ.locks i (some t) } segs chain := by
  obtain ⟨s, hs⟩ := h.exists_segment hph
  have hlt := (List.getElem?_eq_some_iff.mp hs).1
  have hnobody : ∀ u, (σ.threads u).segmentHeld ≠ some i := by
    intro u hu
    rw [h.locks.lock u i hu] at hfree
    exact nomatch hfree
  generalize hp : σ.threads t = p at hph
  have hsame : p.Alike ph ∧ ph.segmentHeld = some i ∧ ph.uses = some i ∧ ph.holdsMain = p.holdsMain := by
    cases p with
    | chosen | deletingChosen =>
      obtain ⟨rfl, rfl⟩ := Prod.mk.inj (Option.some.inj hph)
      exact ⟨⟨rfl, rfl, rfl, rfl, rfl, fun _ => nofun⟩, rfl, rfl, rfl⟩
    | _ => exact nomatch hph
  subst hp
  obtain ⟨ha, hheld, huses, hmain⟩ := hsame
  refine h.relock ha ?_ ?_
  · rw [attr_keep Phase.holdsMain hmain, hheld]
    exact h.locks.lockSegment t le_rfl hlt hnobody
  · rw [huses]
    exact h.inits.use t hs fun u o n hu => hnobody u (Phase.segmentHeld_of_newSegment hu)

theorem unlockSegment (h : Sound B σ segs chain) {new : Multiset (ℕ × ℕ)}
    (hph : (σ.threads t).unlockSegment = some (i, new)) :
    Sound B { σ.move t .idle with
      locks := Function.update σ.locks i none, blocks := σ.blocks + new } segs chain := by
  generalize hp : σ.threads t = p at hph
  have hsame : p.segmentHeld = some i ∧ Phase.idle.newSegment = p.newSegment ∧
      Phase.idle.picks = p.picks ∧ Phase.idle.takes = p.takes ∧ Phase.idle.returns = p.returns ∧
      Phase.idle.uses = p.uses ∧ Phase.idle.holdsMain = p.holdsMain ∧
      new.Nodup ∧ ∀ q, p.owns = some q ↔ q ∈ new := by
    cases p with
    | taken j b =>
      obtain ⟨rfl, rfl⟩ := Prod.mk.inj (Option.some.inj hph)
      refine ⟨rfl, rfl, rfl, rfl, rfl, rfl, rfl, Multiset.nodup_singleton _, fun q => ?_⟩
      rw [Multiset.mem_singleton]
      exact ⟨fun hq => (Option.some.inj hq).symm, fun hq => congrArg some hq.symm⟩
    | deleted j =>
      obtain ⟨rfl, rfl⟩ := Prod.mk.inj (Option.some.inj hph)
      exact ⟨rfl, rfl, rfl, rfl, rfl, rfl, rfl, Multiset.nodup_zero,
        fun q => iff_of_false nofun (Multiset.notMem_zero q)⟩
    | _ => exact nomatch hph
  subst hp
  obtain ⟨hheld, hnew, hpicks, htakes, hreturns, huses, hmain, hnodup, howns⟩ := hsame
  refine sound_move h h.shape h.few ?_ ?_ ?_ (h.owned.finish t hnodup howns) fun e he => nomatch he
  · rw [attr_keep Phase.holdsMain hmain]
    exact h.locks.unlockSegment hheld
  · rw [attr_keep Phase.takes htakes, attr_keep Phase.returns hreturns,
      attr_keep Phase.picks hpicks]
    exact h.free
  · rw [attr_keep Phase.newSegment hnew, attr_keep Phase.uses huses]
    exact h.inits

/-! ## Code -/

/-- What the code of a phase may do: keep the invariant, or need a segment larger than a `size_t`. -/
def Good (B : BlockSize) (σ : World) (t : ℕ) : Except FileErr (Phase × SegmentManager) → Prop
  | .ok (ph, m') => ∃ segs' chain',
    Sound B { σ.move t ph with manager := m', locks := ph.newLock t σ.locks } segs' chain'
  | .error e => e = .badConversion ∧ σ.threads t = .creating

theorem segmentAt_of_uses (h : Sound B σ segs chain) (ht : (σ.threads t).uses = some i) :
    ∃ s, segs[i]? = some s ∧ σ.manager.segments[i]? = some (some s) ∧
      σ.manager.segmentAt i = .ok s := by
  obtain ⟨s, hs, hms⟩ := h.inits.uses t i ht
  refine ⟨s, hs, hms, ?_⟩
  unfold SegmentManager.segmentAt
  rw [hms]

/-- Nobody else has the manager's mutex. -/
theorem picks_none (h : Sound B σ segs chain) (ht : (σ.threads t).holdsMain = true) (u : ℕ) :
    Function.update (fun u => (σ.threads u).picks) t none u = none := by
  by_cases hut : u = t
  · rw [hut, Function.update_self]
  · rw [Function.update_of_ne hut]
    by_contra hne
    obtain ⟨i, hi⟩ := Option.ne_none_iff_exists'.mp hne
    have hmain := h.locks.main u (Phase.holdsMain_of_picks hi)
    rw [h.locks.main t ht] at hmain
    exact hut (Option.some.inj hmain).symm

/-- `createBlock` finds a free segment. -/
theorem code_chosen (h : Sound B σ segs chain) (ht : σ.threads t = .creating)
    (hi : i ∈ σ.manager.freeSegments) : Good B σ t (.ok (.chosen i, σ.manager)) := by
  refine ⟨segs, chain, sound_move h h.shape h.few ?_ ?_ ?_ ?_ fun e he => nomatch he⟩
  · rw [attr_keep Phase.holdsMain (by rw [ht]; rfl), attr_keep Phase.segmentHeld (by rw [ht]; rfl)]
    exact h.locks
  · rw [attr_keep Phase.takes (by rw [ht]; rfl), attr_keep Phase.returns (by rw [ht]; rfl)]
    exact h.free.pick_start t hi
  · rw [attr_keep Phase.newSegment (by rw [ht]; rfl), attr_keep Phase.uses (by rw [ht]; rfl)]
    exact h.inits
  · rw [attr_keep Phase.owns (by rw [ht]; rfl)]
    exact h.owned

/-- When no segment is free, the newest one is initialised. -/
theorem newest (h : Sound B σ segs chain) (he : σ.manager.freeSegments = ∅) (s : Segment)
    (hs : segs.getLast? = some s) : σ.manager.segmentAt (segs.length - 1) = .ok s := by
  rw [List.getLast?_eq_getElem?] at hs
  unfold SegmentManager.segmentAt
  rcases h.inits.entry _ s hs with hms | ⟨-, u, o, n, hu⟩
  · rw [hms]
  · -- its publisher has its mutex, so it would still be in `freeSegments`
    obtain ⟨hget, -, hn⟩ := h.inits.new u _ o n hu
    have hheld := Phase.segmentHeld_of_newSegment hu
    have hquiet : (σ.threads u).takes = none ∧ (σ.threads u).returns = none := by
      generalize σ.threads u = p at hu
      cases p with
      | added | addedReleased => exact ⟨rfl, rfl⟩
      | _ => exact nomatch hu
    have hmem := (h.free.quiet_of_alone (alone (h.other hheld)) hquiet.1 hquiet.2).mpr
      ⟨_, hget, show 0 < n - 0 + 0 by omega⟩
    rw [he] at hmem
    exact absurd hmem (Finset.notMem_empty _)

/-- `createBlock` publishes a new segment. -/
theorem code_added (h : Sound B σ segs chain) (ht : σ.threads t = .creating)
    (he : σ.manager.freeSegments = ∅) (hfew : σ.manager.FewSegments 0) (hfit : σ.manager.FitsFile B) :
    Good B σ t (do
      let ((i, offset, size), m') ← σ.manager.addSegment B
      .ok (.added i offset size, m')) := by
  have hlen := h.inits.length
  have hfew' := hfew he
  rw [hlen] at hfew'
  have hoff := nextOffset_eq h.shape hlen (h.newest he)
  have hend := hfit _ hoff
  rw [addSegment_eq h.shape.toCore hlen hoff he, resize_fits hend]
  split
  · rename_i hlt
    set n := σ.manager.nextSize with hn
    set o := ending B B.bytes segs with ho
    have hten : 10 ≤ n := le_max_left _ _
    have hshape := h.shape.added hlt hend
    have hlen' : (segs ++ [Segment.create B o n]).length = segs.length + 1 := by
      rw [List.length_append, List.length_singleton]
    refine ⟨segs ++ [Segment.create B o n], Function.update chain segs.length [],
      sound_move h hshape (by rw [hlen']; exact hfew') ?_ ?_ ?_ ?_ fun e he => nomatch he⟩
    · rw [attr_keep Phase.holdsMain (by rw [ht]; rfl), hlen']
      refine h.locks.lockSegment t (Nat.le_succ _) (Nat.lt_succ_self _) fun u hu => ?_
      exact lt_irrefl _ (h.locks.lt u _ hu)
    · rw [attr_keep Phase.takes (by rw [ht]; rfl), attr_keep Phase.returns (by rw [ht]; rfl),
        attr_keep Phase.picks (by rw [ht]; rfl)]
      have hpos : 0 < (Segment.create B o n).freeBlocks := show 0 < n - 0 + 0 by omega
      have hadd := h.free.add hpos
      rw [he] at hadd
      exact hadd
    · rw [attr_keep Phase.uses (by rw [ht]; rfl)]
      exact h.inits.add (by rw [ht]; rfl) hten
    · rw [attr_keep Phase.owns (by rw [ht]; rfl)]
      exact h.owned.add o n
  · exact ⟨rfl, ht⟩

/-- `createBlock` updates `freeSegments`. -/
theorem code_marked (h : Sound B σ segs chain) (ht : σ.threads t = .locked i) :
    Good B σ t (do
      let m' ← σ.manager.markFull i
      .ok (.marked i, m')) := by
  obtain ⟨s, hs, -, hat⟩ := h.segmentAt_of_uses (t := t) (by rw [ht]; rfl)
  have hmain : (σ.threads t).holdsMain = true := by rw [ht]; rfl
  have hheld : (σ.threads t).segmentHeld = some i := by rw [ht]; rfl
  have htk : (σ.threads t).takes = none := by rw [ht]; rfl
  have hrt : (σ.threads t).returns = none := by rw [ht]; rfl
  have halone := alone (h.other hheld)
  have hmem := h.free.pick t i (by rw [ht]; rfl)
  obtain ⟨s₀, hs₀, hpos⟩ := (h.free.quiet_of_alone halone htk hrt).mp hmem
  obtain rfl : s = s₀ := Option.some.inj (hs.symm.trans hs₀)
  rw [markFull_eq hat hpos]
  refine ⟨segs, chain, sound_move h h.shape h.few ?_ ?_ ?_ ?_ fun e he => nomatch he⟩
  · rw [attr_keep Phase.holdsMain (by rw [ht]; rfl), attr_keep Phase.segmentHeld (by rw [ht]; rfl)]
    exact h.locks
  · rw [attr_keep Phase.returns (by rw [ht]; rfl)]
    exact (h.free.pick_stop t).mark halone htk hrt (h.picks_none hmain) hs hpos
  · rw [attr_keep Phase.newSegment (by rw [ht]; rfl), attr_keep Phase.uses (by rw [ht]; rfl)]
    exact h.inits
  · rw [attr_keep Phase.owns (by rw [ht]; rfl)]
    exact h.owned

/-- `createBlock` takes its block. -/
theorem code_taken (h : Sound B σ segs chain) (ht : σ.threads t = .released i)
    (hP : σ.manager.firstBlock i < blockLimit) :
    Good B σ t (do
      let (b, m') ← σ.manager.takeBlock B i
      .ok (.taken i b, m')) := by
  obtain ⟨s, hs, hms, hat⟩ := h.segmentAt_of_uses (t := t) (by rw [ht]; rfl)
  have hheld : (σ.threads t).segmentHeld = some i := by rw [ht]; rfl
  have htk : (σ.threads t).takes = some i := by rw [ht]; rfl
  have hrt : (σ.threads t).returns = none := by rw [ht]; rfl
  have howns : (σ.threads t).owns = none := by rw [ht]; rfl
  obtain ⟨s₀, hs₀, hpos, -⟩ := h.free.take t i htk
  obtain rfl : s = s₀ := Option.some.inj (hs.symm.trans hs₀)
  have hch := h.shape.chained i s hs
  have hlt := (List.getElem?_eq_some_iff.mp hs).1
  obtain ⟨b, s', l', hcreate, w⟩ := Segment.createBlock_spec hch hpos
  have hb : b < blockLimit := by
    unfold firstBlock at hP
    rw [hms] at hP
    dsimp only at hP
    rwa [w.first hch] at hP
  rw [takeBlock_eq hat hcreate]
  refine ⟨segs.set i s', Function.update chain i l', sound_move h (h.shape.handed hs w)
    (by rw [List.length_set]; exact h.few) ?_ ?_ ?_ ?_ fun e he => nomatch he⟩
  · rw [attr_keep Phase.holdsMain (by rw [ht]; rfl), attr_keep Phase.segmentHeld (by rw [ht]; rfl),
      List.length_set]
    exact h.locks
  · rw [attr_keep Phase.returns (by rw [ht]; rfl), attr_keep Phase.picks (by rw [ht]; rfl)]
    exact h.free.took (alone (h.other hheld)) htk hrt hs (w.freeBlocks hch)
  · rw [attr_keep Phase.newSegment (by rw [ht]; rfl)]
    exact (h.inits.set hs hms s').stop t
  · exact h.owned.take hch howns hs w (lt_trans hlt h.few) hb

/-- `createBlock` initialises its new segment. -/
theorem code_released (h : Sound B σ segs chain) {o n : ℕ} (ht : σ.threads t = .addedReleased i o n) :
    Good B σ t (.ok (.released i, σ.manager.initSegment B i o n)) := by
  have hnew : (σ.threads t).newSegment = some (i, o, n) := by rw [ht]; rfl
  have hheld : (σ.threads t).segmentHeld = some i := by rw [ht]; rfl
  have htk : (σ.threads t).takes = none := by rw [ht]; rfl
  have hrt : (σ.threads t).returns = none := by rw [ht]; rfl
  obtain ⟨hs, -, hten⟩ := h.inits.new t i o n hnew
  refine ⟨segs, chain, sound_move h h.shape h.few ?_ ?_ ?_ ?_ fun e he => nomatch he⟩
  · rw [attr_keep Phase.holdsMain (by rw [ht]; rfl), attr_keep Phase.segmentHeld (by rw [ht]; rfl)]
    exact h.locks
  · rw [attr_keep Phase.returns (by rw [ht]; rfl), attr_keep Phase.picks (by rw [ht]; rfl)]
    exact h.free.init (alone (h.other hheld)) htk hrt hs (show 1 < n - 0 + 0 by omega)
  · refine h.inits.init hnew fun u o' n' hut hu => h.other hheld u hut ?_
    exact Phase.segmentHeld_of_newSegment hu
  · rw [attr_keep Phase.owns (by rw [ht]; rfl)]
    exact h.owned

/-- `deleteBlock` finds its segment. -/
theorem code_deletingChosen (h : Sound B σ segs chain) (ht : σ.threads t = .deleting i b) :
    i < σ.manager.segments.length ∧ Good B σ t (.ok (.deletingChosen i b, σ.manager)) := by
  obtain ⟨s, hs, -⟩ := (h.owned.used (i, b)).mpr (.inr ⟨t, by rw [ht]; rfl⟩)
  refine ⟨?_, segs, chain, sound_move h h.shape h.few ?_ ?_ ?_ ?_ fun e he => nomatch he⟩
  · rw [h.inits.length]
    exact (List.getElem?_eq_some_iff.mp hs).1
  · rw [attr_keep Phase.holdsMain (by rw [ht]; rfl), attr_keep Phase.segmentHeld (by rw [ht]; rfl)]
    exact h.locks
  · rw [attr_keep Phase.takes (by rw [ht]; rfl), attr_keep Phase.returns (by rw [ht]; rfl),
      attr_keep Phase.picks (by rw [ht]; rfl)]
    exact h.free
  · rw [attr_keep Phase.newSegment (by rw [ht]; rfl), attr_keep Phase.uses (by rw [ht]; rfl)]
    exact h.inits
  · rw [attr_keep Phase.owns (by rw [ht]; rfl)]
    exact h.owned

/-- `deleteBlock` updates `freeSegments`. -/
theorem code_deletingMarked (h : Sound B σ segs chain) (ht : σ.threads t = .deletingLocked i b) :
    Good B σ t (do
      let m' ← σ.manager.markFree i
      .ok (.deletingMarked i b, m')) := by
  obtain ⟨s, hs, hms, -⟩ := h.segmentAt_of_uses (t := t) (by rw [ht]; rfl)
  have hheld : (σ.threads t).segmentHeld = some i := by rw [ht]; rfl
  have htk : (σ.threads t).takes = none := by rw [ht]; rfl
  have hrt : (σ.threads t).returns = none := by rw [ht]; rfl
  have hlt := (List.getElem?_eq_some_iff.mp hs).1
  have hmark : σ.manager.markFree i
      = .ok { σ.manager with freeSegments := insert i σ.manager.freeSegments } := by
    unfold SegmentManager.markFree
    rw [hms]
  rw [hmark]
  refine ⟨segs, chain, sound_move h h.shape h.few ?_ ?_ ?_ ?_ fun e he => nomatch he⟩
  · rw [attr_keep Phase.holdsMain (by rw [ht]; rfl), attr_keep Phase.segmentHeld (by rw [ht]; rfl)]
    exact h.locks
  · rw [attr_keep Phase.takes (by rw [ht]; rfl), attr_keep Phase.picks (by rw [ht]; rfl)]
    exact h.free.markFree (alone (h.other hheld)) htk hrt hlt
  · rw [attr_keep Phase.newSegment (by rw [ht]; rfl), attr_keep Phase.uses (by rw [ht]; rfl)]
    exact h.inits
  · rw [attr_keep Phase.owns (by rw [ht]; rfl)]
    exact h.owned

/-- `deleteBlock` puts its block back. -/
theorem code_deleted (h : Sound B σ segs chain) (ht : σ.threads t = .deletingReleased i b) :
    Good B σ t (do
      let m' ← σ.manager.returnBlock B i b
      .ok (.deleted i, m')) := by
  obtain ⟨s, hs, hms, hat⟩ := h.segmentAt_of_uses (t := t) (by rw [ht]; rfl)
  have hheld : (σ.threads t).segmentHeld = some i := by rw [ht]; rfl
  have htk : (σ.threads t).takes = none := by rw [ht]; rfl
  have hrt : (σ.threads t).returns = some i := by rw [ht]; rfl
  have howns : (σ.threads t).owns = some (i, b) := by rw [ht]; rfl
  have hused : Used segs chain (i, b) := (h.owned.used _).mpr (.inr ⟨t, howns⟩)
  have hlim := (h.owned.range _ hused).2
  obtain ⟨s₀, hs₀, hb, hl⟩ := hused
  obtain rfl : s = s₀ := Option.some.inj (hs.symm.trans hs₀)
  have hch := h.shape.chained i s hs
  obtain ⟨f', hf', -, -, hshape⟩ := h.shape.deleted hs (lt_of_lt_of_le hb hch.occupied_le) hl hlim
  have hret : σ.manager.returnBlock B i b
      = .ok { σ.manager.setSegment i (s.afterDelete b) with file := f' } := by
    unfold SegmentManager.returnBlock
    rw [hat]
    show (s.deleteBlock B σ.manager.file b >>= _) = _
    rw [hf']
    rfl
  rw [hret]
  refine ⟨segs.set i (s.afterDelete b), Function.update chain i (b :: chain i), sound_move h hshape
    (by rw [List.length_set]; exact h.few) ?_ ?_ ?_ ?_ fun e he => nomatch he⟩
  · rw [attr_keep Phase.holdsMain (by rw [ht]; rfl), attr_keep Phase.segmentHeld (by rw [ht]; rfl),
      List.length_set]
    exact h.locks
  · rw [attr_keep Phase.takes (by rw [ht]; rfl), attr_keep Phase.picks (by rw [ht]; rfl)]
    exact h.free.returned (alone (h.other hheld)) htk hrt hs (Nat.succ_pos _)
  · rw [attr_keep Phase.newSegment (by rw [ht]; rfl)]
    exact (h.inits.set hs hms _).stop t
  · exact h.owned.putBack howns hs

end Sound

/-- Where a new segment is added it ends inside the file, and where a block is taken its number fits into an id. -/
def PhaseInRange (B : BlockSize) (m : SegmentManager) : Phase → Prop
  | .creating => m.freeSegments = ∅ → m.FitsFile B
  | .released i => m.firstBlock i < blockLimit
  | _ => True

/-- The code of every phase keeps the invariant. -/
theorem Sound.code (h : Sound B σ segs chain) {P : SegmentManager → Phase → Prop}
    (hP : ∀ m ph, P m ph → PhaseInRange B m ph)
    (ha : World.Allowed P σ.manager (σ.threads t)) {r : Except FileErr (Phase × SegmentManager)}
    (hrun : (σ.threads t).code B σ.manager pick = some r) : Good B σ t r := by
  generalize hp : σ.threads t = p at hrun ha
  cases p with
  | creating =>
    obtain rfl := Option.some.inj hrun
    by_cases he : σ.manager.freeSegments = ∅
    · rw [if_pos (.inr he)]
      exact h.code_added hp he (ha.1 rfl) (hP _ _ ha.2 he)
    · have hmem := @firstFree_mem σ.manager pick (Finset.nonempty_iff_ne_empty.mpr he)
      have hlt := h.free.lt _ hmem
      rw [← h.inits.length] at hlt
      have hne : σ.manager.segments ≠ [] := List.ne_nil_of_length_pos (by omega)
      rw [if_neg (not_or.mpr ⟨hne, he⟩), if_pos hlt]
      exact h.code_chosen hp hmem
  | locked i =>
    obtain rfl := Option.some.inj hrun
    exact h.code_marked hp
  | released i =>
    obtain rfl := Option.some.inj hrun
    exact h.code_taken hp (hP _ _ ha.2)
  | addedReleased i o n =>
    obtain rfl := Option.some.inj hrun
    exact h.code_released hp
  | deleting i b =>
    obtain rfl := Option.some.inj hrun
    obtain ⟨hlt, hgood⟩ := h.code_deletingChosen hp
    rw [if_pos hlt]
    exact hgood
  | deletingLocked i b =>
    obtain rfl := Option.some.inj hrun
    exact h.code_deletingMarked hp
  | deletingReleased i b =>
    obtain rfl := Option.some.inj hrun
    exact h.code_deleted hp
  | _ => exact nomatch hrun

/-- A thread stops: the code could not go on. -/
theorem Sound.fail (h : Sound B σ segs chain) {P : SegmentManager → Phase → Prop}
    (hP : ∀ m ph, P m ph → PhaseInRange B m ph)
    (ha : World.Allowed P σ.manager (σ.threads t)) {e : FileErr}
    (hrun : (σ.threads t).code B σ.manager pick = some (.error e)) :
    Sound B (σ.move t (.failed e)) segs chain := by
  obtain ⟨rfl, ht⟩ : e = .badConversion ∧ σ.threads t = .creating := h.code hP ha hrun
  refine sound_move h h.shape h.few ?_ ?_ ?_ ?_ fun e he => (Phase.failed.inj he).symm
  · rw [attr_keep Phase.segmentHeld (by rw [ht]; rfl)]
    refine h.locks.weaken (fun u hu => ?_) fun _ _ hu => hu
    by_cases hut : u = t
    · subst hut
      rw [Function.update_self] at hu
      exact nomatch hu
    · rwa [Function.update_of_ne hut] at hu
  · rw [attr_keep Phase.takes (by rw [ht]; rfl), attr_keep Phase.returns (by rw [ht]; rfl),
      attr_keep Phase.picks (by rw [ht]; rfl)]
    exact h.free
  · rw [attr_keep Phase.newSegment (by rw [ht]; rfl), attr_keep Phase.uses (by rw [ht]; rfl)]
    exact h.inits
  · rw [attr_keep Phase.owns (by rw [ht]; rfl)]
    exact h.owned

/-! ## Runs -/

open World

/-- Every step keeps the invariant. -/
theorem Sound.step (h : Sound B σ segs chain) {P : SegmentManager → Phase → Prop}
    (hP : ∀ m ph, P m ph → PhaseInRange B m ph) {σ' : World} (hs : Step B P σ σ') :
    ∃ segs' chain', Sound B σ' segs' chain' := by
  cases hs with
  | call hph hp => exact ⟨_, _, h.call hph hp⟩
  | lockMain hph hfree => exact ⟨_, _, h.lockMain hph hfree⟩
  | lockSegment hph hfree => exact ⟨_, _, h.lockSegment hph hfree⟩
  | unlockMain hph => exact ⟨_, _, h.unlockMain hph⟩
  | unlockSegment hph => exact ⟨_, _, h.unlockSegment hph⟩
  | code pick ha hrun => exact h.code hP ha hrun
  | fail pick ha hrun => exact ⟨_, _, h.fail hP ha hrun⟩

theorem Sound.start {g : ℚ≥0} (hr : construct B g none = .ok m') :
    Sound B (World.start m') [] fun _ => [] := by
  have hinv := Inv.fresh hr
  have hnot : ∀ p, ¬Used [] (fun _ => []) p := by
    rintro p ⟨s, hs, -⟩
    exact nomatch hs
  refine ⟨hinv.toShape, by decide,
    ⟨fun _ h => (nomatch h), fun _ _ h => (nomatch h), fun _ _ h => (nomatch h)⟩,
    ⟨fun i _ _ => hinv.free i, fun _ _ h => (nomatch h), fun _ _ h => (nomatch h), fun _ _ h => (nomatch h),
      fun i hi => ?_⟩,
    ⟨hinv.length, fun _ _ hs => (nomatch hs), fun _ _ _ _ h => (nomatch h), fun _ _ h => (nomatch h)⟩,
    ⟨fun _ _ hs => (nomatch hs), fun p => iff_of_false (hnot p) ?_, Multiset.nodup_zero, fun _ _ h => (nomatch h),
      fun _ _ _ h => (nomatch h), fun p hp => absurd hp (hnot p)⟩, fun _ _ h => (nomatch h)⟩
  · obtain ⟨s, hs, -⟩ := (hinv.free i).mp hi
    exact nomatch hs
  · rintro (hp | ⟨t, ht⟩)
    · exact Multiset.notMem_zero p hp
    · exact nomatch ht

end BEpsilon.File
