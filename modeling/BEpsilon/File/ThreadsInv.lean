import BEpsilon.File.Threads
import BEpsilon.File.Allocator

/-!
# BEpsilon.File.ThreadsInv — the invariant of the threads

What a phase says about its thread is read off by one function for each kind of fact (`holdsMain`,
`segmentHeld`, `takes`, ...), and the invariant has one part for each kind: `Locks`, `Free`, `Inits`,
`Owned`, and `Shape` for the file.  A part speaks about its own functions of the threads only, so a step
that does not touch them keeps it for free.  `Free` is where `freeSegments` runs ahead of the counters:
it is one block behind for the thread that `takes`, and already right for the thread that `returns`.
-/

namespace BEpsilon.File

open SegmentManager

namespace Phase

/-- The thread has the manager's mutex. -/
def holdsMain : Phase → Bool
  | creating | chosen _ | locked _ | marked _ | added _ _ _ | deleting _ _ | deletingChosen _ _
  | deletingLocked _ _ | deletingMarked _ _ => true
  | _ => false

/-- The segment whose mutex the thread has. -/
def segmentHeld : Phase → Option ℕ
  | locked i | marked i | released i | added i _ _ | addedReleased i _ _ | taken i _
  | deletingLocked i _ | deletingMarked i _ | deletingReleased i _ | deleted i => some i
  | _ => none

/-- The segment that the thread has published and not initialised. -/
def newSegment : Phase → Option (ℕ × ℕ × ℕ)
  | added i offset size | addedReleased i offset size => some (i, offset, size)
  | _ => none

/-- The segment that the thread is going to use. -/
def uses : Phase → Option ℕ
  | locked i | marked i | released i | deletingLocked i _ | deletingMarked i _
  | deletingReleased i _ => some i
  | _ => none

/-- The segment that the thread has found in `freeSegments`. -/
def picks : Phase → Option ℕ
  | chosen i | locked i => some i
  | _ => none

/-- The segment that is about to lose a block. -/
def takes : Phase → Option ℕ
  | marked i | released i => some i
  | _ => none

/-- The segment that is about to get one back. -/
def returns : Phase → Option ℕ
  | deletingMarked i _ | deletingReleased i _ => some i
  | _ => none

/-- The block that the thread has taken or is going to return. -/
def owns : Phase → Option (ℕ × ℕ)
  | taken i b | called i b | deleting i b | deletingChosen i b | deletingLocked i b
  | deletingMarked i b | deletingReleased i b => some (i, b)
  | _ => none

variable {ph : Phase} {i : ℕ}

theorem segmentHeld_of_takes (h : ph.takes = some i) : ph.segmentHeld = some i := by
  cases ph <;> first | exact h | exact nomatch h

theorem segmentHeld_of_returns (h : ph.returns = some i) : ph.segmentHeld = some i := by
  cases ph <;> first | exact h | exact nomatch h

theorem holdsMain_of_picks (h : ph.picks = some i) : ph.holdsMain = true := by
  cases ph <;> first | rfl | exact nomatch h

theorem segmentHeld_of_newSegment {o n : ℕ} (h : ph.newSegment = some (i, o, n)) :
    ph.segmentHeld = some i := by
  cases ph with
  | added | addedReleased =>
    obtain ⟨rfl, -⟩ := Prod.mk.inj (Option.some.inj h)
    rfl
  | _ => exact nomatch h

end Phase

/-! ## The parts of the invariant -/

variable {B : BlockSize} {f : ByteFile} {m m' : SegmentManager} {segs : List Segment} {chain : ℕ → List ℕ}
  {t u i b pick : ℕ} {s s' : Segment} {l' : List ℕ} {main : Option ℕ} {locks : ℕ → Option ℕ}

/-- A thread that says it has a mutex has it; there are `n` segments. -/
structure Locks (n : ℕ) (main : Option ℕ) (locks : ℕ → Option ℕ) (holdsMain : ℕ → Bool)
    (held : ℕ → Option ℕ) : Prop where
  main : ∀ t, holdsMain t = true → main = some t
  lock : ∀ t i, held t = some i → locks i = some t
  lt : ∀ t i, held t = some i → i < n

/-- `freeSegments`, with the threads that are ahead of the counters. -/
structure Free (free : Finset ℕ) (segs : List Segment) (takes returns picks : ℕ → Option ℕ) : Prop where
  quiet : ∀ i, (∀ t, takes t ≠ some i) → (∀ t, returns t ≠ some i) →
    (i ∈ free ↔ ∃ s, segs[i]? = some s ∧ 0 < s.freeBlocks)
  take : ∀ t i, takes t = some i →
    ∃ s, segs[i]? = some s ∧ 0 < s.freeBlocks ∧ (i ∈ free ↔ 1 < s.freeBlocks)
  ret : ∀ t i, returns t = some i → i ∈ free
  pick : ∀ t i, picks t = some i → i ∈ free
  lt : ∀ i ∈ free, i < segs.length

/-- The segments in memory: a published segment that is not initialised belongs to one thread. -/
structure Inits (B : BlockSize) (ms : List (Option Segment)) (segs : List Segment)
    (new : ℕ → Option (ℕ × ℕ × ℕ)) (uses : ℕ → Option ℕ) : Prop where
  length : ms.length = segs.length
  entry : ∀ (i : ℕ) (s : Segment), segs[i]? = some s → ms[i]? = some (some s) ∨
    ms[i]? = some none ∧ ∃ t o n, new t = some (i, o, n)
  new : ∀ t i o n, new t = some (i, o, n) →
    segs[i]? = some (Segment.create B o n) ∧ ms[i]? = some none ∧ 10 ≤ n
  uses : ∀ t i, uses t = some i → ∃ s, segs[i]? = some s ∧ ms[i]? = some (some s)

/-- The block was handed out and not put back. -/
def Used (segs : List Segment) (chain : ℕ → List ℕ) (p : ℕ × ℕ) : Prop :=
  ∃ s, segs[p.1]? = some s ∧ p.2 < s.header.occupiedBlocks ∧ p.2 ∉ chain p.1

/-- Every used block is live, and then only once, or belongs to one thread. -/
structure Owned (segs : List Segment) (chain : ℕ → List ℕ) (blocks : Multiset (ℕ × ℕ))
    (owns : ℕ → Option (ℕ × ℕ)) : Prop where
  below : ∀ (i : ℕ) (s : Segment), segs[i]? = some s → ∀ b ∈ chain i, b < s.header.occupiedBlocks
  used : ∀ p, Used segs chain p ↔ p ∈ blocks ∨ ∃ t, owns t = some p
  nodup : blocks.Nodup
  apart : ∀ t p, owns t = some p → p ∉ blocks
  unique : ∀ t u p, owns t = some p → owns u = some p → t = u
  range : ∀ p, Used segs chain p → p.1 < segmentLimit ∧ p.2 < blockLimit

/-- The invariant. -/
structure Sound (B : BlockSize) (σ : World) (segs : List Segment) (chain : ℕ → List ℕ) : Prop where
  shape : Shape B σ.manager.file σ.manager.header segs chain
  few : segs.length < segmentLimit
  locks : Locks segs.length σ.main σ.locks (fun t => (σ.threads t).holdsMain)
    fun t => (σ.threads t).segmentHeld
  free : Free σ.manager.freeSegments segs (fun t => (σ.threads t).takes)
    (fun t => (σ.threads t).returns) fun t => (σ.threads t).picks
  inits : Inits B σ.manager.segments segs (fun t => (σ.threads t).newSegment)
    fun t => (σ.threads t).uses
  owned : Owned segs chain σ.blocks fun t => (σ.threads t).owns
  failed : ∀ t e, σ.threads t = .failed e → e = .badConversion

/-- What one thread's new entry leaves. -/
theorem of_update {α : Type} {f : ℕ → Option α} {x : Option α} {a : α}
    (h : Function.update f t x u = some a) : u = t ∧ x = some a ∨ u ≠ t ∧ f u = some a := by
  by_cases hut : u = t
  · subst hut
    rw [Function.update_self] at h
    exact .inl ⟨rfl, h⟩
  · rw [Function.update_of_ne hut] at h
    exact .inr ⟨hut, h⟩

/-! ## The mutexes -/

namespace Locks

variable {n : ℕ} {hm hm' : ℕ → Bool} {held held' : ℕ → Option ℕ}

/-- Nothing is acquired. -/
theorem weaken (h : Locks n main locks hm held) (hmain : ∀ u, hm' u = true → hm u = true)
    (hheld : ∀ u i, held' u = some i → held u = some i) : Locks n main locks hm' held' :=
  ⟨fun u hu => h.main u (hmain u hu), fun u i hu => h.lock u i (hheld u i hu),
    fun u i hu => h.lt u i (hheld u i hu)⟩

theorem lockMain (h : Locks n none locks hm held) (t : ℕ) (x : Bool) :
    Locks n (some t) locks (Function.update hm t x) held := by
  refine ⟨fun u hu => ?_, h.lock, h.lt⟩
  by_cases hut : u = t
  · rw [hut]
  · rw [Function.update_of_ne hut] at hu
    exact nomatch h.main u hu

theorem unlockMain (h : Locks n main locks hm held) (ht : hm t = true) :
    Locks n none locks (Function.update hm t false) held := by
  refine ⟨fun u hu => ?_, h.lock, h.lt⟩
  by_cases hut : u = t
  · subst hut
    rw [Function.update_self] at hu
    exact nomatch hu
  · rw [Function.update_of_ne hut] at hu
    exact absurd (Option.some.inj ((h.main u hu).symm.trans (h.main t ht))) hut

/-- The mutex of segment `i` is acquired, which no other thread had. -/
theorem lockSegment (h : Locks n main locks hm held) (t : ℕ) {k : ℕ} (hn : n ≤ k) (hi : i < k)
    (hfree : ∀ u, held u ≠ some i) :
    Locks k main (Function.update locks i (some t)) hm (Function.update held t (some i)) := by
  refine ⟨h.main, fun u j hu => ?_, fun u j hu => ?_⟩
  · by_cases hut : u = t
    · subst hut
      rw [Function.update_self] at hu
      obtain rfl := Option.some.inj hu
      rw [Function.update_self]
    · rw [Function.update_of_ne hut] at hu
      have hji : j ≠ i := fun he => hfree u (he ▸ hu)
      rw [Function.update_of_ne hji]
      exact h.lock u j hu
  · by_cases hut : u = t
    · subst hut
      rw [Function.update_self] at hu
      obtain rfl := Option.some.inj hu
      exact hi
    · rw [Function.update_of_ne hut] at hu
      exact lt_of_lt_of_le (h.lt u j hu) hn

theorem unlockSegment (h : Locks n main locks hm held) (ht : held t = some i) :
    Locks n main (Function.update locks i none) hm (Function.update held t none) := by
  refine ⟨h.main, fun u j hu => ?_, fun u j hu => ?_⟩
  · by_cases hut : u = t
    · subst hut
      rw [Function.update_self] at hu
      exact nomatch hu
    · rw [Function.update_of_ne hut] at hu
      have hji : j ≠ i := by
        rintro rfl
        exact hut (Option.some.inj ((h.lock u j hu).symm.trans (h.lock t j ht)))
      rw [Function.update_of_ne hji]
      exact h.lock u j hu
  · by_cases hut : u = t
    · subst hut
      rw [Function.update_self] at hu
      exact nomatch hu
    · rw [Function.update_of_ne hut] at hu
      exact h.lt u j hu

/-- One thread at a time has the mutex of a segment. -/
theorem only (h : Locks n main locks hm held) (ht : held t = some i) (hu : held u = some i) : u = t :=
  Option.some.inj ((h.lock u i hu).symm.trans (h.lock t i ht))

end Locks

/-! ## `freeSegments` -/

namespace Free

variable {free : Finset ℕ} {tk rt pk : ℕ → Option ℕ}

theorem pick_start (h : Free free segs tk rt pk) (t : ℕ) (hi : i ∈ free) :
    Free free segs tk rt (Function.update pk t (some i)) := by
  refine { h with pick := fun u j hu => ?_ }
  by_cases hut : u = t
  · subst hut
    rw [Function.update_self] at hu
    obtain rfl := Option.some.inj hu
    exact hi
  · rw [Function.update_of_ne hut] at hu
    exact h.pick u j hu

theorem pick_stop (h : Free free segs tk rt pk) (t : ℕ) :
    Free free segs tk rt (Function.update pk t none) := by
  refine { h with pick := fun u j hu => ?_ }
  by_cases hut : u = t
  · subst hut
    rw [Function.update_self] at hu
    exact nomatch hu
  · rw [Function.update_of_ne hut] at hu
    exact h.pick u j hu

/-- Nobody else is about to change segment `i`. -/
def Alone (tk rt : ℕ → Option ℕ) (t i : ℕ) : Prop := ∀ u, u ≠ t → tk u ≠ some i ∧ rt u ≠ some i

/-- A thread that is alone with a segment and is about to do nothing yet. -/
theorem quiet_of_alone (h : Free free segs tk rt pk) (ha : Alone tk rt t i) (ht : tk t = none)
    (hr : rt t = none) : i ∈ free ↔ ∃ s, segs[i]? = some s ∧ 0 < s.freeBlocks := by
  refine h.quiet i (fun u => ?_) fun u => ?_
  · by_cases hut : u = t
    · rw [hut, ht]
      exact nofun
    · exact (ha u hut).1
  · by_cases hut : u = t
    · rw [hut, hr]
      exact nofun
    · exact (ha u hut).2

/-- `markFull`: the set is now one block ahead of segment `i`. -/
theorem mark (h : Free free segs tk rt pk) (ha : Alone tk rt t i) (ht : tk t = none) (hr : rt t = none)
    (hp : ∀ u, pk u = none) (hs : segs[i]? = some s) (hpos : 0 < s.freeBlocks) :
    Free (if s.freeBlocks = 1 then free.erase i else free) segs (Function.update tk t (some i)) rt pk := by
  have hmem : ∀ j, j ≠ i → (j ∈ (if s.freeBlocks = 1 then free.erase i else free) ↔ j ∈ free) := by
    intro j hj
    split
    · rw [Finset.mem_erase]
      exact and_iff_right hj
    · exact Iff.rfl
  have hi : i ∈ free := (h.quiet_of_alone ha ht hr).mpr ⟨s, hs, hpos⟩
  have hi' : i ∈ (if s.freeBlocks = 1 then free.erase i else free) ↔ 1 < s.freeBlocks := by
    split
    · rename_i h1
      exact iff_of_false (Finset.notMem_erase i free) (by omega)
    · exact iff_of_true hi (by omega)
  refine ⟨fun j hj hj' => ?_, fun u j hu => ?_, fun u j hu => ?_, fun u j hu => ?_, fun j hj => ?_⟩
  · have hji : j ≠ i := by
      rintro rfl
      exact hj t (Function.update_self ..)
    rw [hmem j hji]
    refine h.quiet j (fun u => ?_) hj'
    by_cases hut : u = t
    · rw [hut, ht]
      exact nofun
    · have := hj u
      rwa [Function.update_of_ne hut] at this
  · by_cases hut : u = t
    · subst hut
      rw [Function.update_self] at hu
      obtain rfl := Option.some.inj hu
      exact ⟨s, hs, hpos, hi'⟩
    · rw [Function.update_of_ne hut] at hu
      have hji : j ≠ i := by
        rintro rfl
        exact (ha u hut).1 hu
      rw [hmem j hji]
      exact h.take u j hu
  · have hut : u ≠ t := by
      rintro rfl
      rw [hr] at hu
      exact nomatch hu
    have hji : j ≠ i := by
      rintro rfl
      exact (ha u hut).2 hu
    rw [hmem j hji]
    exact h.ret u j hu
  · rw [hp u] at hu
    exact nomatch hu
  · by_cases hji : j = i
    · exact hji ▸ h.lt i hi
    · exact h.lt j ((hmem j hji).mp hj)

/-- The block is taken: the counters have caught up. -/
theorem took (h : Free free segs tk rt pk) (ha : Alone tk rt t i) (ht : tk t = some i) (hr : rt t = none)
    (hs : segs[i]? = some s) (hcount : s'.freeBlocks + 1 = s.freeBlocks) :
    Free free (segs.set i s') (Function.update tk t none) rt pk := by
  obtain ⟨s₀, hs₀, -, hfree⟩ := h.take t i ht
  obtain rfl : s = s₀ := Option.some.inj (hs.symm.trans hs₀)
  have hlt := (List.getElem?_eq_some_iff.mp hs).1
  refine ⟨fun j hj hj' => ?_, fun u j hu => ?_, h.ret, h.pick,
    fun j hj => by rw [List.length_set]; exact h.lt j hj⟩
  · by_cases hji : j = i
    · subst hji
      rw [List.getElem?_set_self hlt, hfree]
      simp only [Option.some.injEq, exists_eq_left']
      omega
    · rw [List.getElem?_set_ne (Ne.symm hji)]
      refine h.quiet j (fun u => ?_) hj'
      by_cases hut : u = t
      · rw [hut, ht]
        exact fun he => hji (Option.some.inj he).symm
      · have := hj u
        rwa [Function.update_of_ne hut] at this
  · by_cases hut : u = t
    · subst hut
      rw [Function.update_self] at hu
      exact nomatch hu
    · rw [Function.update_of_ne hut] at hu
      have hji : j ≠ i := by
        rintro rfl
        exact (ha u hut).1 hu
      rw [List.getElem?_set_ne (Ne.symm hji)]
      exact h.take u j hu

/-- A new segment is initialised: the thread is going to take its first block. -/
theorem init (h : Free free segs tk rt pk) (ha : Alone tk rt t i) (ht : tk t = none) (hr : rt t = none)
    (hs : segs[i]? = some s) (hmany : 1 < s.freeBlocks) :
    Free free segs (Function.update tk t (some i)) rt pk := by
  have hi : i ∈ free := (h.quiet_of_alone ha ht hr).mpr ⟨s, hs, by omega⟩
  refine ⟨fun j hj hj' => ?_, fun u j hu => ?_, h.ret, h.pick, h.lt⟩
  · refine h.quiet j (fun u => ?_) hj'
    by_cases hut : u = t
    · rw [hut, ht]
      exact nofun
    · have := hj u
      rwa [Function.update_of_ne hut] at this
  · by_cases hut : u = t
    · subst hut
      rw [Function.update_self] at hu
      obtain rfl := Option.some.inj hu
      exact ⟨s, hs, by omega, iff_of_true hi hmany⟩
    · rw [Function.update_of_ne hut] at hu
      exact h.take u j hu

/-- `markFree`: the set is already right for the block that comes back. -/
theorem markFree (h : Free free segs tk rt pk) (ha : Alone tk rt t i) (ht : tk t = none) (hr : rt t = none)
    (hlt : i < segs.length) :
    Free (insert i free) segs tk (Function.update rt t (some i)) pk := by
  have hmem : ∀ j, j ≠ i → (j ∈ insert i free ↔ j ∈ free) := by
    intro j hj
    rw [Finset.mem_insert]
    exact or_iff_right hj
  refine ⟨fun j hj hj' => ?_, fun u j hu => ?_, fun u j hu => ?_,
    fun u j hu => Finset.mem_insert_of_mem (h.pick u j hu), fun j hj => ?_⟩
  · have hji : j ≠ i := by
      rintro rfl
      exact hj' t (Function.update_self ..)
    rw [hmem j hji]
    refine h.quiet j hj fun u => ?_
    by_cases hut : u = t
    · rw [hut, hr]
      exact nofun
    · have := hj' u
      rwa [Function.update_of_ne hut] at this
  · have hut : u ≠ t := by
      rintro rfl
      rw [ht] at hu
      exact nomatch hu
    have hji : j ≠ i := by
      rintro rfl
      exact (ha u hut).1 hu
    rw [hmem j hji]
    exact h.take u j hu
  · by_cases hut : u = t
    · subst hut
      rw [Function.update_self] at hu
      obtain rfl := Option.some.inj hu
      exact Finset.mem_insert_self _ _
    · rw [Function.update_of_ne hut] at hu
      exact Finset.mem_insert_of_mem (h.ret u j hu)
  · rcases Finset.mem_insert.mp hj with rfl | hj
    · exact hlt
    · exact h.lt j hj

/-- The block has come back. -/
theorem returned (h : Free free segs tk rt pk) (ha : Alone tk rt t i) (ht : tk t = none)
    (hr : rt t = some i) (hs : segs[i]? = some s) (hpos : 0 < s'.freeBlocks) :
    Free free (segs.set i s') tk (Function.update rt t none) pk := by
  have hi := h.ret t i hr
  have hlt := (List.getElem?_eq_some_iff.mp hs).1
  refine ⟨fun j hj hj' => ?_, fun u j hu => ?_, fun u j hu => ?_, h.pick,
    fun j hj => by rw [List.length_set]; exact h.lt j hj⟩
  · by_cases hji : j = i
    · subst hji
      rw [List.getElem?_set_self hlt]
      exact iff_of_true hi ⟨s', rfl, hpos⟩
    · rw [List.getElem?_set_ne (Ne.symm hji)]
      refine h.quiet j hj fun u => ?_
      by_cases hut : u = t
      · rw [hut, hr]
        exact fun he => hji (Option.some.inj he).symm
      · have := hj' u
        rwa [Function.update_of_ne hut] at this
  · have hut : u ≠ t := by
      rintro rfl
      rw [ht] at hu
      exact nomatch hu
    have hji : j ≠ i := by
      rintro rfl
      exact (ha u hut).1 hu
    rw [List.getElem?_set_ne (Ne.symm hji)]
    exact h.take u j hu
  · by_cases hut : u = t
    · subst hut
      rw [Function.update_self] at hu
      exact nomatch hu
    · rw [Function.update_of_ne hut] at hu
      exact h.ret u j hu

/-- A segment is published. -/
theorem add (h : Free free segs tk rt pk) (hpos : 0 < s'.freeBlocks) :
    Free (insert segs.length free) (segs ++ [s']) tk rt pk := by
  have hget : ∀ (j : ℕ) (s : Segment), segs[j]? = some s → (segs ++ [s'])[j]? = some s := by
    intro j s hs
    rw [List.getElem?_append_left (List.getElem?_eq_some_iff.mp hs).1]
    exact hs
  refine ⟨fun j hj hj' => ?_, fun u j hu => ?_, fun u j hu => Finset.mem_insert_of_mem (h.ret u j hu),
    fun u j hu => Finset.mem_insert_of_mem (h.pick u j hu), fun j hj => ?_⟩
  · rw [Finset.mem_insert, h.quiet j hj hj']
    constructor
    · rintro (rfl | ⟨s, hs, hs'⟩)
      · exact ⟨s', List.getElem?_concat_length, hpos⟩
      · exact ⟨s, hget j s hs, hs'⟩
    · rintro ⟨s, hs, hs'⟩
      rcases Shape.get_concat hs with ⟨hjl, -⟩ | ⟨-, hs⟩
      · exact .inl hjl
      · exact .inr ⟨s, hs, hs'⟩
  · obtain ⟨s, hs, hs', hfree⟩ := h.take u j hu
    have hne : j ≠ segs.length := Nat.ne_of_lt (List.getElem?_eq_some_iff.mp hs).1
    refine ⟨s, hget j s hs, hs', ?_⟩
    rw [Finset.mem_insert, or_iff_right hne]
    exact hfree
  · rw [List.length_append, List.length_singleton]
    rcases Finset.mem_insert.mp hj with rfl | hj
    · exact Nat.lt_succ_self _
    · exact Nat.lt_succ_of_lt (h.lt j hj)

end Free

/-! ## The segments in memory -/

namespace Inits

variable {ms : List (Option Segment)} {new : ℕ → Option (ℕ × ℕ × ℕ)} {us : ℕ → Option ℕ} {o n : ℕ}

theorem stop (h : Inits B ms segs new us) (t : ℕ) : Inits B ms segs new (Function.update us t none) := by
  refine { h with uses := fun u j hu => ?_ }
  rcases of_update hu with ⟨-, hx⟩ | ⟨-, hu⟩
  · exact nomatch hx
  · exact h.uses u j hu

/-- A thread that has the mutex of a segment can use it: whoever has not initialised it has the mutex. -/
theorem use (h : Inits B ms segs new us) (t : ℕ) (hs : segs[i]? = some s)
    (hnew : ∀ u o n, new u ≠ some (i, o, n)) : Inits B ms segs new (Function.update us t (some i)) := by
  refine { h with uses := fun u j hu => ?_ }
  rcases of_update hu with ⟨-, hx⟩ | ⟨-, hu⟩
  · obtain rfl := Option.some.inj hx
    refine ⟨s, hs, (h.entry _ s hs).resolve_right ?_⟩
    rintro ⟨-, u, o, n, hu⟩
    exact hnew u o n hu
  · exact h.uses u j hu

/-- The header of an initialised segment changes. -/
theorem set (h : Inits B ms segs new us) (hs : segs[i]? = some s) (hms : ms[i]? = some (some s))
    (s' : Segment) : Inits B (ms.set i (some s')) (segs.set i s') new us := by
  have hlt := (List.getElem?_eq_some_iff.mp hs).1
  have hlt' := (List.getElem?_eq_some_iff.mp hms).1
  refine ⟨by rw [List.length_set, List.length_set]; exact h.length, fun j s₁ hj => ?_,
    fun u j o n hu => ?_, fun u j hu => ?_⟩
  · rcases Shape.get_set hj with ⟨rfl, rfl⟩ | ⟨hne, hj⟩
    · exact .inl (List.getElem?_set_self hlt')
    · rw [List.getElem?_set_ne (Ne.symm hne)]
      exact h.entry j s₁ hj
  · obtain ⟨h₁, h₂, h₃⟩ := h.new u j o n hu
    have hne : i ≠ j := by
      rintro rfl
      rw [hms] at h₂
      exact nomatch h₂
    rw [List.getElem?_set_ne hne, List.getElem?_set_ne hne]
    exact ⟨h₁, h₂, h₃⟩
  · by_cases hne : i = j
    · subst hne
      exact ⟨s', List.getElem?_set_self hlt, List.getElem?_set_self hlt'⟩
    · rw [List.getElem?_set_ne hne, List.getElem?_set_ne hne]
      exact h.uses u j hu

/-- A segment is initialised by the thread that published it. -/
theorem init (h : Inits B ms segs new us) (ht : new t = some (i, o, n))
    (hother : ∀ u o' n', u ≠ t → new u ≠ some (i, o', n')) :
    Inits B (ms.set i (some (Segment.create B o n))) segs (Function.update new t none)
      (Function.update us t (some i)) := by
  obtain ⟨hs, hms, -⟩ := h.new t i o n ht
  have hlt' := (List.getElem?_eq_some_iff.mp hms).1
  have hself : (ms.set i (some (Segment.create B o n)))[i]? = some (some (Segment.create B o n)) :=
    List.getElem?_set_self hlt'
  refine ⟨by rw [List.length_set]; exact h.length, fun j s hj => ?_, fun u j o' n' hu => ?_,
    fun u j hu => ?_⟩
  · by_cases hne : i = j
    · subst hne
      obtain rfl := Option.some.inj (hs.symm.trans hj)
      exact .inl hself
    · rw [List.getElem?_set_ne hne]
      refine (h.entry j s hj).imp id fun ⟨h₁, u, o', n', hu⟩ => ⟨h₁, u, o', n', ?_⟩
      have hut : u ≠ t := by
        rintro rfl
        rw [ht] at hu
        exact hne (Prod.mk.inj (Option.some.inj hu)).1
      rw [Function.update_of_ne hut]
      exact hu
  · rcases of_update hu with ⟨-, hx⟩ | ⟨hut, hu⟩
    · exact nomatch hx
    · obtain ⟨h₁, h₂, h₃⟩ := h.new u j o' n' hu
      have hne : i ≠ j := by
        rintro rfl
        exact hother u o' n' hut hu
      rw [List.getElem?_set_ne hne]
      exact ⟨h₁, h₂, h₃⟩
  · by_cases hne : i = j
    · subst hne
      exact ⟨_, hs, hself⟩
    · rw [List.getElem?_set_ne hne]
      rcases of_update hu with ⟨-, hx⟩ | ⟨-, hu⟩
      · exact absurd (Option.some.inj hx) hne
      · exact h.uses u j hu

/-- A segment is published. -/
theorem add (h : Inits B ms segs new us) (ht : new t = none) (hn : 10 ≤ n) :
    Inits B (ms ++ [none]) (segs ++ [Segment.create B o n])
      (Function.update new t (some (segs.length, o, n))) us := by
  have hget : ∀ (j : ℕ) (s : Segment), segs[j]? = some s →
      (segs ++ [Segment.create B o n])[j]? = some s := by
    intro j s hs
    rw [List.getElem?_append_left (List.getElem?_eq_some_iff.mp hs).1]
    exact hs
  have hget' : ∀ (j : ℕ) (x : Option Segment), ms[j]? = some x → (ms ++ [none])[j]? = some x := by
    intro j x hs
    rw [List.getElem?_append_left (List.getElem?_eq_some_iff.mp hs).1]
    exact hs
  have hnone : (ms ++ [none])[segs.length]? = some none := by
    rw [← h.length]
    exact List.getElem?_concat_length
  refine ⟨?_, fun j s hj => ?_, fun u j o' n' hu => ?_, fun u j hu => ?_⟩
  · rw [List.length_append, List.length_append, h.length]
    rfl
  · rcases Shape.get_concat hj with ⟨rfl, rfl⟩ | ⟨-, hj⟩
    · exact .inr ⟨hnone, t, o, n, Function.update_self ..⟩
    · refine (h.entry j s hj).imp (hget' j _) fun ⟨h₁, u, o', n', hu⟩ => ⟨hget' j _ h₁, u, o', n', ?_⟩
      have hut : u ≠ t := by
        rintro rfl
        rw [ht] at hu
        exact nomatch hu
      rw [Function.update_of_ne hut]
      exact hu
  · rcases of_update hu with ⟨-, hx⟩ | ⟨-, hu⟩
    · obtain ⟨rfl, hon⟩ := Prod.mk.inj (Option.some.inj hx)
      obtain ⟨rfl, rfl⟩ := Prod.mk.inj hon
      exact ⟨List.getElem?_concat_length, hnone, hn⟩
    · obtain ⟨h₁, h₂, h₃⟩ := h.new u j o' n' hu
      exact ⟨hget j _ h₁, hget' j _ h₂, h₃⟩
  · obtain ⟨s, h₁, h₂⟩ := h.uses u j hu
    exact ⟨s, hget j s h₁, hget' j _ h₂⟩

end Inits

/-! ## The blocks -/

/-- What a thread that takes a block makes of the used ones. -/
theorem Used.handed (h : s.Chained B f (chain i)) (hbelow : ∀ b ∈ chain i, b < s.header.occupiedBlocks)
    (hs : segs[i]? = some s) (w : s.Handed (chain i) b s' l') :
    ¬Used segs chain (i, b) ∧ ∀ p, Used (segs.set i s') (Function.update chain i l') p ↔
      p = (i, b) ∨ Used segs chain p := by
  obtain ⟨-, hnew, hblocks⟩ := w.blocks h hbelow
  have hlt := (List.getElem?_eq_some_iff.mp hs).1
  constructor
  · rintro ⟨t, ht, hb⟩
    obtain rfl : s = t := Option.some.inj (hs.symm.trans ht)
    exact hnew hb
  · rintro ⟨j, a⟩
    unfold Used
    dsimp only
    by_cases hj : j = i
    · subst hj
      rw [List.getElem?_set_self hlt, Function.update_self, hs]
      simp only [Option.some.injEq, exists_eq_left', hblocks, Prod.mk.injEq, true_and]
    · rw [List.getElem?_set_ne (Ne.symm hj), Function.update_of_ne hj]
      exact (or_iff_right fun he => hj (Prod.mk.inj he).1).symm

/-- What a thread that puts a block back makes of them. -/
theorem Used.deleted (hs : segs[i]? = some s) (hu : Used segs chain (i, b)) (p : ℕ × ℕ) :
    Used (segs.set i (s.afterDelete b)) (Function.update chain i (b :: chain i)) p ↔
      Used segs chain p ∧ p ≠ (i, b) := by
  obtain ⟨j, a⟩ := p
  unfold Used
  dsimp only
  by_cases hj : j = i
  · subst hj
    rw [List.getElem?_set_self (List.getElem?_eq_some_iff.mp hs).1, Function.update_self, hs]
    simp only [Option.some.injEq, exists_eq_left', Segment.occupied_afterDelete, List.mem_cons, not_or,
      ne_eq, Prod.mk.injEq, true_and]
    tauto
  · rw [List.getElem?_set_ne (Ne.symm hj), Function.update_of_ne hj]
    exact (and_iff_left fun he => hj (Prod.mk.inj he).1).symm

namespace Owned

variable {blocks : Multiset (ℕ × ℕ)} {ow : ℕ → Option (ℕ × ℕ)} {p : ℕ × ℕ}

/-- `deleteBlock` is called for a live block. -/
theorem call (h : Owned segs chain blocks ow) (ht : ow t = none) (hp : p ∈ blocks) :
    Owned segs chain (blocks.erase p) (Function.update ow t (some p)) := by
  have hnot : ∀ u, ow u ≠ some p := fun u hu => h.apart u p hu hp
  refine ⟨h.below, fun q => ?_, h.nodup.erase p, fun u q hu => ?_, fun u v q hu hv => ?_, h.range⟩
  · rw [h.used]
    constructor
    · rintro (hq | ⟨u, hu⟩)
      · by_cases hqp : q = p
        · subst hqp
          exact .inr ⟨t, Function.update_self ..⟩
        · exact .inl ((Multiset.mem_erase_of_ne hqp).mpr hq)
      · have hut : u ≠ t := by
          rintro rfl
          rw [ht] at hu
          exact nomatch hu
        exact .inr ⟨u, by rw [Function.update_of_ne hut]; exact hu⟩
    · rintro (hq | ⟨u, hu⟩)
      · exact .inl (Multiset.mem_of_mem_erase hq)
      · rcases of_update hu with ⟨-, hx⟩ | ⟨-, hu⟩
        · exact .inl (Option.some.inj hx ▸ hp)
        · exact .inr ⟨u, hu⟩
  · rcases of_update hu with ⟨-, hx⟩ | ⟨-, hu⟩
    · rw [← Option.some.inj hx]
      exact h.nodup.notMem_erase
    · exact fun hq => h.apart u q hu (Multiset.mem_of_mem_erase hq)
  · rcases of_update hu with ⟨hut, hx⟩ | ⟨-, hu'⟩ <;> rcases of_update hv with ⟨hvt, hy⟩ | ⟨-, hv'⟩
    · exact hut.trans hvt.symm
    · exact absurd (hv'.trans hx.symm) (hnot v)
    · exact absurd (hu'.trans hy.symm) (hnot u)
    · exact h.unique u v q hu' hv'

/-- `createBlock` returns its block, or `deleteBlock` returns. -/
theorem finish (h : Owned segs chain blocks ow) (t : ℕ) {new : Multiset (ℕ × ℕ)} (hnew : new.Nodup)
    (ht : ∀ p, ow t = some p ↔ p ∈ new) :
    Owned segs chain (blocks + new) (Function.update ow t none) := by
  have hapart : Disjoint blocks new :=
    Multiset.disjoint_left.mpr fun hq hq' => h.apart t _ ((ht _).mpr hq') hq
  refine ⟨h.below, fun q => ?_, Multiset.nodup_add.mpr ⟨h.nodup, hnew, hapart⟩, fun u q hu => ?_,
    fun u v q hu hv => ?_, h.range⟩
  · rw [h.used, Multiset.mem_add]
    constructor
    · rintro (hq | ⟨u, hu⟩)
      · exact .inl (.inl hq)
      · by_cases hut : u = t
        · subst hut
          exact .inl (.inr ((ht q).mp hu))
        · exact .inr ⟨u, by rw [Function.update_of_ne hut]; exact hu⟩
    · rintro ((hq | hq) | ⟨u, hu⟩)
      · exact .inl hq
      · exact .inr ⟨t, (ht q).mpr hq⟩
      · rcases of_update hu with ⟨-, hx⟩ | ⟨-, hu⟩
        · exact nomatch hx
        · exact .inr ⟨u, hu⟩
  · rcases of_update hu with ⟨-, hx⟩ | ⟨hut, hu⟩
    · exact nomatch hx
    · rw [Multiset.mem_add, not_or]
      exact ⟨h.apart u q hu, fun hq => hut (h.unique u t q hu ((ht q).mpr hq))⟩
  · rcases of_update hu with ⟨-, hx⟩ | ⟨-, hu⟩
    · exact nomatch hx
    · rcases of_update hv with ⟨-, hy⟩ | ⟨-, hv⟩
      · exact nomatch hy
      · exact h.unique u v q hu hv

/-- A thread takes a block of a segment. -/
theorem take (h : Owned segs chain blocks ow) (hch : s.Chained B f (chain i)) (ht : ow t = none)
    (hs : segs[i]? = some s) (w : s.Handed (chain i) b s' l') (hi : i < segmentLimit)
    (hb : b < blockLimit) :
    Owned (segs.set i s') (Function.update chain i l') blocks (Function.update ow t (some (i, b))) := by
  have hbelow := h.below i s hs
  obtain ⟨hbelow', -, -⟩ := w.blocks hch hbelow
  obtain ⟨hnew, hused⟩ := Used.handed hch hbelow hs w
  have hfresh : (i, b) ∉ blocks ∧ ∀ u, ow u ≠ some (i, b) :=
    ⟨fun hmem => hnew ((h.used _).mpr (.inl hmem)), fun u hu => hnew ((h.used _).mpr (.inr ⟨u, hu⟩))⟩
  refine ⟨fun j u hu a ha => ?_, fun q => ?_, h.nodup, fun u q hu => ?_, fun u v q hu hv => ?_, fun q hq => ?_⟩
  · rcases Shape.get_set hu with ⟨rfl, rfl⟩ | ⟨hj, hu⟩
    · rw [Function.update_self] at ha
      exact hbelow' a ha
    · rw [Function.update_of_ne hj] at ha
      exact h.below j u hu a ha
  · rw [hused, h.used]
    constructor
    · rintro (rfl | hq | ⟨u, hu⟩)
      · exact .inr ⟨t, Function.update_self ..⟩
      · exact .inl hq
      · have hut : u ≠ t := by
          rintro rfl
          rw [ht] at hu
          exact nomatch hu
        exact .inr ⟨u, by rw [Function.update_of_ne hut]; exact hu⟩
    · rintro (hq | ⟨u, hu⟩)
      · exact .inr (.inl hq)
      · rcases of_update hu with ⟨-, hx⟩ | ⟨-, hu⟩
        · exact .inl (Option.some.inj hx).symm
        · exact .inr (.inr ⟨u, hu⟩)
  · rcases of_update hu with ⟨-, hx⟩ | ⟨-, hu⟩
    · rw [← Option.some.inj hx]
      exact hfresh.1
    · exact h.apart u q hu
  · rcases of_update hu with ⟨hut, hx⟩ | ⟨-, hu'⟩ <;> rcases of_update hv with ⟨hvt, hy⟩ | ⟨-, hv'⟩
    · exact hut.trans hvt.symm
    · exact absurd (hv'.trans hx.symm) (hfresh.2 v)
    · exact absurd (hu'.trans hy.symm) (hfresh.2 u)
    · exact h.unique u v q hu' hv'
  · rcases (hused q).mp hq with rfl | hq
    · exact ⟨hi, hb⟩
    · exact h.range q hq

/-- A thread puts its block back. -/
theorem putBack (h : Owned segs chain blocks ow) (ht : ow t = some (i, b)) (hs : segs[i]? = some s) :
    Owned (segs.set i (s.afterDelete b)) (Function.update chain i (b :: chain i)) blocks
      (Function.update ow t none) := by
  have hu : Used segs chain (i, b) := (h.used _).mpr (.inr ⟨t, ht⟩)
  have hused := Used.deleted hs hu
  refine ⟨fun j v hv a ha => ?_, fun q => ?_, h.nodup, fun v q hv => ?_, fun v w q hv hw => ?_, fun q hq => ?_⟩
  · rcases Shape.get_set hv with ⟨rfl, rfl⟩ | ⟨hj, hv⟩
    · rw [Function.update_self] at ha
      rcases List.mem_cons.mp ha with rfl | ha
      · obtain ⟨s₀, hs₀, hb, -⟩ := hu
        obtain rfl := Option.some.inj (hs.symm.trans hs₀)
        exact hb
      · exact h.below _ s hs a ha
    · rw [Function.update_of_ne hj] at ha
      exact h.below j v hv a ha
  · rw [hused, h.used]
    constructor
    · rintro ⟨hq | ⟨v, hv⟩, hne⟩
      · exact .inl hq
      · have hvt : v ≠ t := by
          rintro rfl
          exact hne (Option.some.inj (hv.symm.trans ht))
        exact .inr ⟨v, by rw [Function.update_of_ne hvt]; exact hv⟩
    · rintro (hq | ⟨v, hv⟩)
      · exact ⟨.inl hq, fun he => h.apart t _ ht (he ▸ hq)⟩
      · rcases of_update hv with ⟨-, hx⟩ | ⟨hvt, hv⟩
        · exact nomatch hx
        · exact ⟨.inr ⟨v, hv⟩, fun he => hvt (h.unique v t _ (he ▸ hv) ht)⟩
  · rcases of_update hv with ⟨-, hx⟩ | ⟨-, hv⟩
    · exact nomatch hx
    · exact h.apart v q hv
  · rcases of_update hv with ⟨-, hx⟩ | ⟨-, hv⟩
    · exact nomatch hx
    · rcases of_update hw with ⟨-, hy⟩ | ⟨-, hw⟩
      · exact nomatch hy
      · exact h.unique v w q hv hw
  · exact h.range q ((hused q).mp hq).1

/-- A segment is published: none of its blocks is used. -/
theorem add (h : Owned segs chain blocks ow) (o n : ℕ) :
    Owned (segs ++ [Segment.create B o n]) (Function.update chain segs.length []) blocks ow := by
  have hused : ∀ p, Used (segs ++ [Segment.create B o n]) (Function.update chain segs.length []) p ↔
      Used segs chain p := by
    rintro ⟨j, a⟩
    unfold Used
    dsimp only
    constructor
    · rintro ⟨s, hs, hb, hl⟩
      rcases Shape.get_concat hs with ⟨-, rfl⟩ | ⟨hj, hs⟩
      · exact absurd hb (Nat.not_lt_zero a)
      · rw [Function.update_of_ne hj] at hl
        exact ⟨s, hs, hb, hl⟩
    · rintro ⟨s, hs, hb, hl⟩
      have hj : j < segs.length := (List.getElem?_eq_some_iff.mp hs).1
      refine ⟨s, by rw [List.getElem?_append_left hj]; exact hs, hb, ?_⟩
      rw [Function.update_of_ne (Nat.ne_of_lt hj)]
      exact hl
  refine ⟨fun j s hs b hb => ?_, fun q => (hused q).trans (h.used q), h.nodup, h.apart, h.unique,
    fun q hq => h.range q ((hused q).mp hq)⟩
  rcases Shape.get_concat hs with ⟨rfl, -⟩ | ⟨hj, hs⟩
  · rw [Function.update_self] at hb
    exact nomatch hb
  · rw [Function.update_of_ne hj] at hb
    exact h.below j s hs b hb

end Owned

end BEpsilon.File
