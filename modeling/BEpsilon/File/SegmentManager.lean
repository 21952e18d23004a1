import BEpsilon.File.Segment
import Mathlib.Data.NNRat.Defs
import Mathlib.Data.Finset.Max

/-!
# BEpsilon.File.SegmentManager — the block allocator over the segments of one file

The code of `SegmentManager.h`, function by function.  `createBlock` and `deleteBlock` are cut where the
code acquires and releases its mutexes: `addSegment`, `markFull` and `markFree` run under the manager's
mutex, `initSegment`, `takeBlock` and `returnBlock` under the segment's alone.  One thread runs them in
sequence; several threads interleave them.
-/

namespace BEpsilon.File

/-- `SegmentManager::Header` -/
structure ManagerHeader where
  numberOfSegments : ℕ
  lastAllocatedBlocks : ℕ
deriving DecidableEq, Repr

/-- The object representation. -/
def ManagerHeader.toBytes (h : ManagerHeader) : List UInt8 :=
  bytesOf 8 h.numberOfSegments ++ bytesOf 8 h.lastAllocatedBlocks

def ManagerHeader.ofBytes (l : List UInt8) : ManagerHeader where
  numberOfSegments := natOf (l.take 8)
  lastAllocatedBlocks := natOf ((l.drop 8).take 8)

@[simp] theorem ManagerHeader.length_toBytes (h : ManagerHeader) : h.toBytes.length = 16 := by
  simp [toBytes]

theorem ManagerHeader.ofBytes_toBytes {h : ManagerHeader} (hn : h.numberOfSegments < UInt64.size)
    (hl : h.lastAllocatedBlocks < UInt64.size) : ofBytes h.toBytes = h := by
  have h₁ := SegmentHeader.natOf_word hn
  have h₂ := SegmentHeader.natOf_word hl
  obtain ⟨a, b⟩ := h
  simp_all [toBytes, ofBytes, bytesOf]

/-- `SegmentManager`: the file behind `fd`, the header, the containers (each with an `optional`
segment), `freeSegments` and the growth factor. -/
structure SegmentManager where
  file : ByteFile
  header : ManagerHeader
  segments : List (Option Segment)
  freeSegments : Finset ℕ
  growthFactor : ℚ≥0

namespace SegmentManager

/-! ## Ids -/

/-- `SegmentManager::getIndexFromID`: `id >> 48` -/
def getIndexFromID (id : UInt64) : ℕ := (id >>> 48).toNat

/-- `SegmentManager::getBlockFromID`: `id & 0xffffffffffff` -/
def getBlockFromID (id : UInt64) : ℕ := (id &&& 0xffffffffffff).toNat

/-- `(segmentIndex << 48) | blockID` -/
def packID (segmentIndex blockID : ℕ) : UInt64 :=
  (UInt64.ofNat segmentIndex <<< 48) ||| UInt64.ofNat blockID

/-! ## The sections of createBlock and deleteBlock -/

variable (B : BlockSize) (m : SegmentManager)

/-- `max(10, lastAllocatedBlocks * growthFactor)`, the product truncated. -/
def nextSize : ℕ :=
  max 10 (m.header.lastAllocatedBlocks * m.growthFactor.num / m.growthFactor.den)

/-- The same as the code computes it: the product has to fit into a `size_t`. -/
def nextAllocation : Except FileErr ℕ :=
  if m.nextSize < UInt64.size then .ok m.nextSize else .error .badConversion

/-- `segments.at(i)->segment`, engaged. -/
def segmentAt (i : ℕ) : Except FileErr Segment :=
  match m.segments[i]? with
  | none => .error .outOfRange
  | some none => .error .emptyOptional
  | some (some s) => .ok s

/-- `segments.at(i)->segment = s` -/
def setSegment (i : ℕ) (s : Segment) : SegmentManager :=
  { m with segments := m.segments.set i (some s) }

/-- Where the next segment goes: behind the last one, in a `size_t`. -/
def nextOffset : Except FileErr ℕ :=
  if m.header.numberOfSegments = 0 then .ok B.bytes
  else do
    let s ← m.segmentAt (m.segments.length - 1)
    .ok ((s.fileOffset + s.getTotalSize B) % UInt64.size)

/-- `createBlock` without a free segment, up to the release of the manager's mutex: the index, the
offset and the size of the new segment.  What `ftruncate` answers is not looked at. -/
def addSegment : Except FileErr ((ℕ × ℕ × ℕ) × SegmentManager) :=
  if m.segments = [] ∧ m.header.numberOfSegments ≠ 0 then .error .assertFailed
  else if m.freeSegments ≠ ∅ then .error .assertFailed
  else do
    let segmentSize ← m.nextAllocation
    let segmentOffset ← m.nextOffset B
    let segmentIndex := m.segments.length
    .ok ((segmentIndex, segmentOffset, segmentSize), { m with
      header := ⟨m.header.numberOfSegments + 1, segmentSize⟩
      segments := m.segments ++ [none]
      freeSegments := insert segmentIndex m.freeSegments
      file := m.file.resize ((segmentOffset + B.bytes + segmentSize * B.bytes) % UInt64.size) })

/-- `createBlock` under the new segment's mutex: initialise it. -/
def initSegment (segmentIndex segmentOffset segmentSize : ℕ) : SegmentManager :=
  m.setSegment segmentIndex (Segment.create B segmentOffset segmentSize)

/-- `createBlock` under both mutexes: a segment that has one free block left is full. -/
def markFull (segmentIndex : ℕ) : Except FileErr SegmentManager := do
  let s ← m.segmentAt segmentIndex
  if s.freeBlocks = 0 then .error .assertFailed
  else if s.freeBlocks = 1 then
    .ok { m with freeSegments := m.freeSegments.erase segmentIndex }
  else .ok m

/-- `createBlock` under the segment's mutex: a block of the segment. -/
def takeBlock (segmentIndex : ℕ) : Except FileErr (ℕ × SegmentManager) := do
  let s ← m.segmentAt segmentIndex
  let (b, s') ← s.createBlock B m.file
  .ok (b, m.setSegment segmentIndex s')

/-- `deleteBlock` under both mutexes. -/
def markFree (segmentIndex : ℕ) : Except FileErr SegmentManager :=
  match m.segments[segmentIndex]? with
  | none => .error .outOfRange
  | some none => .error .assertFailed
  | some (some _) => .ok { m with freeSegments := insert segmentIndex m.freeSegments }

/-- `deleteBlock` under the segment's mutex. -/
def returnBlock (segmentIndex blockID : ℕ) : Except FileErr SegmentManager := do
  let s ← m.segmentAt segmentIndex
  let (f, s') ← s.deleteBlock B m.file blockID
  .ok { m.setSegment segmentIndex s' with file := f }

/-- `*freeSegments.begin()`: the set is unordered, so any element can come first. -/
def firstFree (pick : ℕ) : ℕ :=
  if pick ∈ m.freeSegments then pick else m.freeSegments.min.untopD 0

/-! ## The public operations -/

/-- `createBlock` up to the packing of the id: the segment and the block in it. -/
def allocate (pick : ℕ) : Except FileErr ((ℕ × ℕ) × SegmentManager) :=
  if m.segments = [] ∨ m.freeSegments = ∅ then do
    let ((i, offset, size), m₁) ← m.addSegment B
    let (b, m₂) ← (m₁.initSegment B i offset size).takeBlock B i
    .ok ((i, b), m₂)
  else do
    let i := m.firstFree pick
    let m₁ ← m.markFull i
    let (b, m₂) ← m₁.takeBlock B i
    .ok ((i, b), m₂)

/-- `SegmentManager::createBlock` -/
def createBlock (pick : ℕ) : Except FileErr (UInt64 × SegmentManager) := do
  let ((i, b), m') ← m.allocate B pick
  .ok (packID i b, m')

/-- `SegmentManager::deleteBlock` -/
def deleteBlock (id : UInt64) : Except FileErr SegmentManager := do
  let m₁ ← m.markFree (getIndexFromID id)
  m₁.returnBlock B (getIndexFromID id) (getBlockFromID id)

/-- `SegmentManager::readBlock` -/
def readBlock (id : UInt64) : Except FileErr (Block B) :=
  match m.segments[getIndexFromID id]? with
  | none => .error .outOfRange
  | some none => .error .assertFailed
  | some (some s) => s.readBlock B m.file (getBlockFromID id)

/-- `SegmentManager::writeBlock` -/
def writeBlock (id : UInt64) (data : Block B) : Except FileErr SegmentManager :=
  match m.segments[getIndexFromID id]? with
  | none => .error .outOfRange
  | some none => .error .assertFailed
  | some (some s) => do
    let f ← s.writeBlock B m.file (getBlockFromID id) data
    .ok { m with file := f }

/-- The loop of `flush` over the segments. -/
def flushSegments : List (Option Segment) → ByteFile → Except FileErr ByteFile
  | [], f => .ok f
  | none :: _, _ => .error .assertFailed
  | some s :: l, f => do
    let f' ← s.flush f
    flushSegments l f'

/-- `SegmentManager::flush` -/
def flush : Except FileErr SegmentManager := do
  let f ← flushSegments m.segments m.file
  let f' ← writeOrRaise .couldNotSaveFileHeader f m.header.toBytes 0
  .ok { m with file := f' }

/-- The loop of the constructor: load `n` segments, the first of them with index `i` at `offset`. -/
def loadSegments (f : ByteFile) : ℕ → ℕ → ℕ → Except FileErr (List (Option Segment) × Finset ℕ)
  | 0, _, _ => .ok ([], ∅)
  | n + 1, i, offset => do
    let s ← Segment.load B f offset
    let (l, free) ← loadSegments f n (i + 1) ((s.fileOffset + s.getTotalSize B) % UInt64.size)
    .ok (some s :: l, if 0 < s.freeBlocks then insert i free else free)

/-- The constructor: on a directory with a segment file, or without one. -/
def construct (growthFactor : ℚ≥0) : Option ByteFile → Except FileErr SegmentManager
  | some f =>
    let raw := f.pread 16 0
    if raw.length ≠ 16 then .error .invalidSegmentFile
    else do
      let header := ManagerHeader.ofBytes raw
      let (segments, free) ← loadSegments B f header.numberOfSegments 0 B.bytes
      .ok ⟨f, header, segments, free, growthFactor⟩
  | none =>
    if B.bytes < ByteFile.limit then .ok ⟨ByteFile.empty.ftruncate B.bytes, ⟨0, 0⟩, [], ∅, growthFactor⟩
    else .error .couldNotIncreaseFileSize

end SegmentManager

end BEpsilon.File
