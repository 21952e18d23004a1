import BEpsilon.File.Client
import Mathlib.Data.Multiset.UnionInter

/-!
# BEpsilon.File.Threads — createBlock and deleteBlock on many threads

Each thread is in a `Phase` of one of the two calls.  A step is the acquisition or the release of a
mutex, or the code between two of them (`Phase.code`), so the window in which `freeSegments` is ahead of
the counters, and the one in which a new segment is published but not initialised, are states here.
Clients delete live blocks only; a block is live from the return of `createBlock` to the call of
`deleteBlock`.  The live blocks are a multiset: a block that two calls handed out is in it twice.
-/

namespace BEpsilon.File

open SegmentManager

/-- Where a thread is.  `offset` and `size` are those of a new segment. -/
inductive Phase
  | idle
  /-- `createBlock` under the manager's mutex -/
  | creating
  /-- it has chosen a free segment -/
  | chosen (i : ℕ)
  /-- it has both mutexes -/
  | locked (i : ℕ)
  /-- `freeSegments` is up to date -/
  | marked (i : ℕ)
  /-- only the segment's mutex is left, its counters are still the old ones -/
  | released (i : ℕ)
  /-- it has published a new segment, whose mutex it has -/
  | added (i offset size : ℕ)
  /-- only the segment's mutex is left, the segment is not initialised -/
  | addedReleased (i offset size : ℕ)
  /-- it has a block -/
  | taken (i b : ℕ)
  /-- `deleteBlock` was called -/
  | called (i b : ℕ)
  | deleting (i b : ℕ)
  | deletingChosen (i b : ℕ)
  | deletingLocked (i b : ℕ)
  /-- `freeSegments` is up to date -/
  | deletingMarked (i b : ℕ)
  /-- only the segment's mutex is left, its list is still the old one -/
  | deletingReleased (i b : ℕ)
  | deleted (i : ℕ)
  | failed (e : FileErr)

namespace Phase

/-- A thread that waits for the manager's mutex, and where it is when it has it. -/
def lockMain : Phase → Option Phase
  | idle => some creating
  | called i b => some (deleting i b)
  | _ => none

/-- A thread that waits for the mutex of a segment, and where it is when it has it. -/
def lockSegment : Phase → Option (ℕ × Phase)
  | chosen i => some (i, locked i)
  | deletingChosen i b => some (i, deletingLocked i b)
  | _ => none

/-- A thread about to release the manager's mutex. -/
def unlockMain : Phase → Option Phase
  | marked i => some (released i)
  | added i offset size => some (addedReleased i offset size)
  | deletingMarked i b => some (deletingReleased i b)
  | _ => none

/-- A thread about to release the mutex of a segment, with the block it returns. -/
def unlockSegment : Phase → Option (ℕ × Multiset (ℕ × ℕ))
  | taken i b => some (i, {(i, b)})
  | deleted i => some (i, 0)
  | _ => none

/-- The mutexes after thread `t` went on to a phase.  The mutex of a new segment is acquired with its
publication: until the manager's mutex is released nobody else can reach it. -/
def newLock (t : ℕ) (locks : ℕ → Option ℕ) : Phase → ℕ → Option ℕ
  | added i _ _ => Function.update locks i (some t)
  | _ => locks

/-- The code that a thread runs between two operations on a mutex. -/
def code (B : BlockSize) (m : SegmentManager) (pick : ℕ) :
    Phase → Option (Except FileErr (Phase × SegmentManager))
  | creating => some <|
    if m.segments = [] ∨ m.freeSegments = ∅ then do
      let ((i, offset, size), m') ← m.addSegment B
      .ok (added i offset size, m')
    else if m.firstFree pick < m.segments.length then .ok (chosen (m.firstFree pick), m)
    else .error .outOfRange
  | locked i => some do
    let m' ← m.markFull i
    .ok (marked i, m')
  | released i => some do
    let (b, m') ← m.takeBlock B i
    .ok (taken i b, m')
  | addedReleased i offset size => some (.ok (released i, m.initSegment B i offset size))
  | deleting i b => some <|
    if i < m.segments.length then .ok (deletingChosen i b, m) else .error .outOfRange
  | deletingLocked i b => some do
    let m' ← m.markFree i
    .ok (deletingMarked i b, m')
  | deletingReleased i b => some do
    let m' ← m.returnBlock B i b
    .ok (deleted i, m')
  | _ => none

end Phase

/-- The manager, who holds its mutexes, where the threads are, and the live blocks. -/
structure World where
  manager : SegmentManager
  main : Option ℕ
  locks : ℕ → Option ℕ
  threads : ℕ → Phase
  blocks : Multiset (ℕ × ℕ)

namespace World

variable (B : BlockSize) (P : SegmentManager → Phase → Prop)

/-- Thread `t` goes on to `ph`. -/
def move (σ : World) (t : ℕ) (ph : Phase) : World :=
  { σ with threads := Function.update σ.threads t ph }

/-- What a run may ask of the code of a thread: a new segment keeps the manager below `2 ^ 16` of them, and `P`
holds of the phase. -/
def Allowed (m : SegmentManager) (ph : Phase) : Prop := (ph = .creating → m.FewSegments 0) ∧ P m ph

/-- One step of one thread. -/
inductive Step : World → World → Prop
  | call {σ : World} {t : ℕ} {p : ℕ × ℕ} (hph : σ.threads t = .idle) (hp : p ∈ σ.blocks) :
      Step σ { σ.move t (.called (getIndexFromID (idOf p)) (getBlockFromID (idOf p))) with
        blocks := σ.blocks.erase p }
  | lockMain {σ : World} {t : ℕ} {ph : Phase} (hph : (σ.threads t).lockMain = some ph)
      (hfree : σ.main = none) : Step σ { σ.move t ph with main := some t }
  | lockSegment {σ : World} {t i : ℕ} {ph : Phase}
      (hph : (σ.threads t).lockSegment = some (i, ph)) (hfree : σ.locks i = none) :
      Step σ { σ.move t ph with locks := Function.update σ.locks i (some t) }
  | unlockMain {σ : World} {t : ℕ} {ph : Phase} (hph : (σ.threads t).unlockMain = some ph) :
      Step σ { σ.move t ph with main := none }
  | unlockSegment {σ : World} {t i : ℕ} {new : Multiset (ℕ × ℕ)}
      (hph : (σ.threads t).unlockSegment = some (i, new)) :
      Step σ { σ.move t .idle with
        locks := Function.update σ.locks i none, blocks := σ.blocks + new }
  | code {σ : World} {t : ℕ} {ph : Phase} {m' : SegmentManager} (pick : ℕ)
      (hP : Allowed P σ.manager (σ.threads t))
      (hrun : (σ.threads t).code B σ.manager pick = some (.ok (ph, m'))) :
      Step σ { σ.move t ph with manager := m', locks := ph.newLock t σ.locks }
  | fail {σ : World} {t : ℕ} {e : FileErr} (pick : ℕ)
      (hP : Allowed P σ.manager (σ.threads t))
      (hrun : (σ.threads t).code B σ.manager pick = some (.error e)) :
      Step σ (σ.move t (.failed e))

/-- The threads on a fresh manager. -/
def start (m : SegmentManager) : World := ⟨m, none, fun _ => none, fun _ => .idle, 0⟩

/-- What the threads can reach from a fresh manager with growth factor `g`, in any order of steps. -/
inductive Reach (g : ℚ≥0) : World → Prop
  | start {m : SegmentManager} (hr : construct B g none = .ok m) : Reach g (start m)
  | step {σ σ' : World} (h : Reach g σ) (hs : Step B P σ σ') : Reach g σ'

end World

end BEpsilon.File
