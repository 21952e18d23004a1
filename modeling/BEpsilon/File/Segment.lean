import BEpsilon.Lib.Bytes
import Mathlib.Data.List.Chain
import Mathlib.Data.List.Perm.Subperm
import Mathlib.Data.List.Nodup

/-!
# BEpsilon.File.Segment — one segment of the block file

The code of `Segment.h`, function by function.  A segment is a header of one block followed by
`allocatedBlocks` blocks, at a fixed offset of the file; deleted blocks are chained through their
first eight bytes, with no end marker: `deletedBlocks` says how long the chain is.  Counters are naturals.
Offsets are computed in a `size_t`, in which they wrap around; `start` and `extent` are what they are meant to
be, and `Inside` is where the two agree.  `pread` may come back short, and `pwrite` fails where no file reaches
(the disk is never full).
-/

namespace BEpsilon.File

/-- The template parameter `B`, with what the `static_assert`s check. -/
structure BlockSize where
  bytes : ℕ
  header_le : 48 ≤ bytes
  fits : bytes < UInt64.size

/-- `std::array<unsigned char, B>` -/
def Block (B : BlockSize) := { l : List UInt8 // l.length = B.bytes }

/-- What the file layer raises: the texts of `util::raise`, a failed `assert`, `vector::at`, an empty
`optional`, and the conversion to `size_t` of a number that is too large for it. -/
inductive FileErr
  | invalidSegmentFile | couldNotIncreaseFileSize | couldNotSaveFileHeader | invalidSegment
  | differentBlockSizes | couldNotReadId | couldNotWriteId | allBlocksOccupied | couldNotReadBlock
  | couldNotWriteBlock | couldNotSaveHeader | assertFailed | outOfRange | emptyOptional | badConversion
deriving DecidableEq, Repr

/-- `Segment::Header` -/
structure SegmentHeader where
  blockSize : ℕ
  allocatedBlocks : ℕ
  occupiedBlocks : ℕ
  deletedBlocks : ℕ
  freeNodesHead : Option ℕ
deriving DecidableEq, Repr

/-- `Segment` (the file descriptor is the file the functions are given) -/
structure Segment where
  fileOffset : ℕ
  header : SegmentHeader
deriving DecidableEq, Repr

namespace SegmentHeader

/-- The object representation: four words, the value and the flag of the `optional`, padding. -/
def toBytes (h : SegmentHeader) : List UInt8 :=
  bytesOf 8 h.blockSize ++ bytesOf 8 h.allocatedBlocks ++ bytesOf 8 h.occupiedBlocks
    ++ bytesOf 8 h.deletedBlocks ++ bytesOf 8 (h.freeNodesHead.getD 0)
    ++ bytesOf 8 (if h.freeNodesHead.isSome then 1 else 0)

def ofBytes (l : List UInt8) : SegmentHeader where
  blockSize := natOf (l.take 8)
  allocatedBlocks := natOf ((l.drop 8).take 8)
  occupiedBlocks := natOf ((l.drop 16).take 8)
  deletedBlocks := natOf ((l.drop 24).take 8)
  freeNodesHead := if l.getD 40 0 = 0 then none else some (natOf ((l.drop 32).take 8))

/-- Every number of the header fits into its eight bytes. -/
structure Fits (h : SegmentHeader) : Prop where
  blockSize : h.blockSize < UInt64.size
  allocated : h.allocatedBlocks < UInt64.size
  occupied : h.occupiedBlocks < UInt64.size
  deleted : h.deletedBlocks < UInt64.size
  head : ∀ b ∈ h.freeNodesHead, b < UInt64.size

theorem natOf_word {n : ℕ} (h : n < UInt64.size) : natOf (bytesOf 8 n) = n :=
  natOf_bytesOf (lt_of_lt_of_eq h (by decide))

@[simp] theorem length_toBytes (h : SegmentHeader) : h.toBytes.length = 48 := by
  simp [toBytes]

/-- A header is read back as it was written. -/
theorem ofBytes_toBytes {h : SegmentHeader} (w : h.Fits) : ofBytes h.toBytes = h := by
  have h₁ := natOf_word w.blockSize
  have h₂ := natOf_word w.allocated
  have h₃ := natOf_word w.occupied
  have h₄ := natOf_word w.deleted
  have h₅ : ∀ b ∈ h.freeNodesHead, natOf (bytesOf 8 b) = b := fun b hb => natOf_word (w.head b hb)
  obtain ⟨a, b, c, d, e⟩ := h
  cases e with
  | none => simp_all [toBytes, ofBytes, bytesOf]
  | some e => simp_all [toBytes, ofBytes, bytesOf]

end SegmentHeader

/-- What a computation that went on has got to. -/
theorem bind_ok {α β : Type} {x : Except FileErr α} {k : α → Except FileErr β} {r : β}
    (h : x >>= k = .ok r) : ∃ a, x = .ok a ∧ k a = .ok r := by
  cases x with
  | error e => exact nomatch h
  | ok a => exact ⟨a, rfl, h⟩

/-- A `pwrite` that has to write all of `data`, and the error that is raised if it does not. -/
def writeOrRaise (e : FileErr) (f : ByteFile) (data : List UInt8) (offset : ℕ) : Except FileErr ByteFile :=
  if offset + data.length < ByteFile.limit then .ok (f.pwrite data offset) else .error e

namespace Segment

variable (B : BlockSize) (f : ByteFile) (s : Segment)

/-- Where block `id` starts: `fileOffset + B + id * B`, in a `size_t` -/
def blockAt (id : ℕ) : ℕ := (s.fileOffset + B.bytes + id * B.bytes) % UInt64.size

/-- `Segment(fd, fileOffset)`: load the header of an existing segment. -/
def load (fileOffset : ℕ) : Except FileErr Segment :=
  let raw := f.pread 48 fileOffset
  if raw.length ≠ 48 then .error .invalidSegment
  else
    let header := SegmentHeader.ofBytes raw
    if header.blockSize ≠ B.bytes then .error .differentBlockSizes
    else .ok ⟨fileOffset, header⟩

/-- `Segment(fd, fileOffset, segmentSize)`: a new segment. -/
def create (fileOffset segmentSize : ℕ) : Segment :=
  ⟨fileOffset, ⟨B.bytes, segmentSize, 0, 0, none⟩⟩

/-- `Segment::getIDInBlock` -/
def getIDInBlock (id : ℕ) : Except FileErr ℕ :=
  let raw := f.pread 8 (s.blockAt B id)
  if raw.length ≠ 8 then .error .couldNotReadId else .ok (natOf raw)

/-- `Segment::storeIDInBlock` -/
def storeIDInBlock (id idToStore : ℕ) : Except FileErr ByteFile :=
  writeOrRaise .couldNotWriteId f (bytesOf 8 idToStore) (s.blockAt B id)

/-- `Segment::getTotalSize`: header and blocks, in a `size_t`. -/
def getTotalSize : ℕ := (B.bytes + s.header.allocatedBlocks * B.bytes) % UInt64.size

/-- `Segment::freeBlocks` -/
def freeBlocks : ℕ := s.header.allocatedBlocks - s.header.occupiedBlocks + s.header.deletedBlocks

/-- `Segment::createBlock` -/
def createBlock : Except FileErr (ℕ × Segment) :=
  if 0 < s.header.deletedBlocks then
    match s.header.freeNodesHead with
    | none => .error .assertFailed
    | some result =>
      if 1 < s.header.deletedBlocks then do
        let nextID ← s.getIDInBlock B f result
        .ok (result, { s with header := { s.header with
          freeNodesHead := some nextID, deletedBlocks := s.header.deletedBlocks - 1 } })
      else
        .ok (result, { s with header := { s.header with
          freeNodesHead := none, deletedBlocks := s.header.deletedBlocks - 1 } })
  else if s.header.freeNodesHead.isSome then .error .assertFailed
  else if s.header.occupiedBlocks < s.header.allocatedBlocks then
    .ok (s.header.occupiedBlocks, { s with header := { s.header with
      occupiedBlocks := s.header.occupiedBlocks + 1 } })
  else .error .allBlocksOccupied

/-- `Segment::deleteBlock` -/
def deleteBlock (id : ℕ) : Except FileErr (ByteFile × Segment) :=
  if 0 < s.header.deletedBlocks then
    match s.header.freeNodesHead with
    | none => .error .assertFailed
    | some nextID => do
      let f' ← s.storeIDInBlock B f id nextID
      .ok (f', { s with header := { s.header with
        freeNodesHead := some id, deletedBlocks := s.header.deletedBlocks + 1 } })
  else if s.header.freeNodesHead.isSome then .error .assertFailed
  else
    .ok (f, { s with header := { s.header with
      freeNodesHead := some id, deletedBlocks := s.header.deletedBlocks + 1 } })

/-- `Segment::readBlock` -/
def readBlock (id : ℕ) : Except FileErr (Block B) :=
  let raw := f.pread B.bytes (s.blockAt B id)
  if h : raw.length = B.bytes then .ok ⟨raw, h⟩ else .error .couldNotReadBlock

/-- `Segment::writeBlock` -/
def writeBlock (id : ℕ) (data : Block B) : Except FileErr ByteFile :=
  writeOrRaise .couldNotWriteBlock f data.val (s.blockAt B id)

/-- `Segment::flush` -/
def flush : Except FileErr ByteFile := writeOrRaise .couldNotSaveHeader f s.header.toBytes s.fileOffset

/-! ## The blocks of a segment lie beside each other -/

/-- Where block `id` is meant to start. -/
def start (id : ℕ) : ℕ := s.fileOffset + B.bytes + id * B.bytes

/-- The bytes that a segment is meant to take. -/
def extent : ℕ := B.bytes + s.header.allocatedBlocks * B.bytes

/-- The segment lies in the file, and the file is one that there can be. -/
structure Inside : Prop where
  room : s.fileOffset + s.extent B ≤ f.size
  size_lt : f.size < ByteFile.limit

variable {B f s} {f' : ByteFile} {s' : Segment} {a b lo hi : ℕ} {l l' : List ℕ}

theorem start_add_le (h : a < b) : s.start B a + B.bytes ≤ s.start B b := by
  have hm : (a + 1) * B.bytes ≤ b * B.bytes := Nat.mul_le_mul_right _ h
  rw [Nat.succ_mul] at hm
  unfold start
  omega

theorem start_disjoint (h : a ≠ b) :
    s.start B a + B.bytes ≤ s.start B b ∨ s.start B b + B.bytes ≤ s.start B a := by
  rcases Nat.lt_or_gt_of_ne h with hlt | hgt
  · exact .inl (start_add_le hlt)
  · exact .inr (start_add_le hgt)

theorem le_start (b : ℕ) : s.fileOffset + B.bytes ≤ s.start B b := Nat.le_add_right _ _

theorem start_add_le_end (h : b < s.header.allocatedBlocks) :
    s.start B b + B.bytes ≤ s.fileOffset + s.extent B := by
  have hb := start_add_le (B := B) (s := s) h
  unfold start at hb ⊢
  unfold extent
  omega

theorem limit_lt : ByteFile.limit < UInt64.size := by decide

namespace Inside

variable (h : Inside B f s)
include h

theorem start_le (hb : b < s.header.allocatedBlocks) : s.start B b + B.bytes ≤ f.size :=
  (start_add_le_end hb).trans h.room

theorem start_lt (hb : b < s.header.allocatedBlocks) : s.start B b + B.bytes < ByteFile.limit :=
  (h.start_le hb).trans_lt h.size_lt

theorem blockAt_eq (hb : b < s.header.allocatedBlocks) : s.blockAt B b = s.start B b := by
  have hlt := h.start_lt hb
  have hlim := limit_lt
  exact Nat.mod_eq_of_lt (by unfold start at hlt; omega)

theorem getTotalSize_eq : s.getTotalSize B = s.extent B := by
  have hroom := h.room
  have hlt := h.size_lt
  have hlim := limit_lt
  exact Nat.mod_eq_of_lt (by unfold extent at hroom; omega)

theorem header_lt : s.fileOffset + 48 < ByteFile.limit := by
  have hroom := h.room
  have hlt := h.size_lt
  have hB := B.header_le
  unfold extent at hroom
  omega

end Inside

/-! ## The chain of deleted blocks -/

/-- `l` is the chain of deleted blocks of the segment: it starts at `freeNodesHead`, each block of it
stores the next one, and `deletedBlocks` is its length. -/
structure Chained (B : BlockSize) (f : ByteFile) (s : Segment) (l : List ℕ) : Prop where
  blockSize : s.header.blockSize = B.bytes
  fits : s.header.allocatedBlocks < UInt64.size
  occupied_le : s.header.occupiedBlocks ≤ s.header.allocatedBlocks
  head : l.head? = s.header.freeNodesHead
  length : l.length = s.header.deletedBlocks
  nodup : l.Nodup
  lt : ∀ b ∈ l, b < s.header.allocatedBlocks
  linked : l.IsChain fun a b => s.getIDInBlock B f a = .ok b

theorem Chained.create {o n : ℕ} (hn : n < UInt64.size) : Chained B f (create B o n) [] where
  blockSize := rfl
  fits := hn
  occupied_le := Nat.zero_le _
  head := rfl
  length := rfl
  nodup := .nil
  lt _ hb := nomatch hb
  linked := .nil

/-- A chain only has blocks of the segment, each of them once. -/
theorem Chained.length_le (h : Chained B f s l) : l.length ≤ s.header.allocatedBlocks := by
  have hsub : l ⊆ List.range s.header.allocatedBlocks := fun b hb => List.mem_range.mpr (h.lt b hb)
  have hle := (List.subperm_of_subset h.nodup hsub).length_le
  rwa [List.length_range] at hle

/-- The numbers of the header fit into its words. -/
theorem Chained.header_fits (h : Chained B f s l) : s.header.Fits where
  blockSize := by rw [h.blockSize]; exact B.fits
  allocated := h.fits
  occupied := lt_of_le_of_lt h.occupied_le h.fits
  deleted := by rw [← h.length]; exact lt_of_le_of_lt h.length_le h.fits
  head b hb := by
    rw [← h.head] at hb
    exact lt_trans (h.lt b (List.mem_of_mem_head? hb)) h.fits

/-- An empty chain is in no file. -/
theorem Chained.of_nil (h : Chained B f s []) (f' : ByteFile) : Chained B f' s [] := { h with linked := .nil }

/-- The stored id of a block is not seen by a change beside it. -/
theorem getIDInBlock_frame (hin : Inside B f s) (ha : a < s.header.allocatedBlocks)
    (c : ByteFile.Changed lo hi f f') (hd : s.start B a + B.bytes ≤ lo ∨ hi ≤ s.start B a) :
    s.getIDInBlock B f' a = s.getIDInBlock B f a := by
  have hB := B.header_le
  have hr := hin.start_le ha
  unfold getIDInBlock
  rw [hin.blockAt_eq ha, c.pread (by omega) (by omega)]

/-- An id is stored in the block. -/
theorem storeIDInBlock_eq (hin : Inside B f s) (ha : a < s.header.allocatedBlocks) (b : ℕ) :
    s.storeIDInBlock B f a b = .ok (f.pwrite (bytesOf 8 b) (s.start B a)) := by
  have hB := B.header_le
  have hlt := hin.start_lt ha
  unfold storeIDInBlock writeOrRaise
  rw [hin.blockAt_eq ha, length_bytesOf, if_pos (by omega)]

theorem getIDInBlock_stored (hin : Inside B f s) (ha : a < s.header.allocatedBlocks) (hb : b < UInt64.size) :
    s.getIDInBlock B (f.pwrite (bytesOf 8 b) (s.start B a)) a = .ok b := by
  have hread : (f.pwrite (bytesOf 8 b) (s.start B a)).pread 8 (s.start B a) = bytesOf 8 b := by
    have h := ByteFile.pread_pwrite f (bytesOf 8 b) (s.start B a)
    rwa [length_bytesOf] at h
  unfold getIDInBlock
  rw [hin.blockAt_eq ha]
  simp only [hread, length_bytesOf, SegmentHeader.natOf_word hb, ne_eq, not_true_eq_false, if_false]

/-- The chain survives every change beside its blocks. -/
theorem Chained.frame (h : Chained B f s l) (hin : Inside B f s) (c : ByteFile.Changed lo hi f f')
    (hd : ∀ b ∈ l, s.start B b + B.bytes ≤ lo ∨ hi ≤ s.start B b) : Chained B f' s l := by
  refine { h with linked := h.linked.imp_of_mem_imp fun a b ha _ hab => ?_ }
  rw [getIDInBlock_frame hin (h.lt a ha) c (hd a ha)]
  exact hab

/-! ## What `createBlock` and `deleteBlock` do to it -/

/-- The block a segment hands out: the head of the chain, or the first one never used. -/
inductive Handed (s : Segment) : List ℕ → ℕ → Segment → List ℕ → Prop
  | reused (b : ℕ) (l : List ℕ) : Handed s (b :: l) b
      { s with header := { s.header with
        freeNodesHead := l.head?, deletedBlocks := s.header.deletedBlocks - 1 } } l
  | unused (h : s.header.occupiedBlocks < s.header.allocatedBlocks) :
      Handed s [] s.header.occupiedBlocks
        { s with header := { s.header with occupiedBlocks := s.header.occupiedBlocks + 1 } } []

theorem Handed.chained (w : Handed s l b s' l') (h : Chained B f s l) : Chained B f s' l' := by
  cases w with
  | reused b l =>
    have hlen := h.length
    rw [List.length_cons] at hlen
    exact { h with
      head := rfl
      length := by dsimp only; omega
      nodup := (List.nodup_cons.mp h.nodup).2
      lt := fun b hb => h.lt b (List.mem_cons_of_mem _ hb)
      linked := h.linked.tail }
  | unused ho => exact { h with occupied_le := ho }

theorem Handed.subset (w : Handed s l b s' l') : l' ⊆ l := by
  cases w with
  | reused b l => exact fun _ => List.mem_cons_of_mem _
  | unused ho => exact fun _ => id

theorem Handed.lt_allocated (w : Handed s l b s' l') (h : Chained B f s l) :
    b < s.header.allocatedBlocks := by
  cases w with
  | reused b l => exact h.lt b List.mem_cons_self
  | unused ho => exact ho

/-- The head of the chain is handed out, or the first block never used. -/
theorem Handed.first (w : Handed s l b s' l') (h : Chained B f s l) :
    s.header.freeNodesHead.getD s.header.occupiedBlocks = b := by
  rw [← h.head]
  cases w <;> rfl

theorem Handed.fileOffset (w : Handed s l b s' l') : s'.fileOffset = s.fileOffset := by
  cases w <;> rfl

theorem Handed.allocatedBlocks (w : Handed s l b s' l') :
    s'.header.allocatedBlocks = s.header.allocatedBlocks := by
  cases w <;> rfl

/-- Handing out a block takes one from `freeBlocks`. -/
theorem Handed.freeBlocks (w : Handed s l b s' l') (h : Chained B f s l) :
    s'.freeBlocks + 1 = s.freeBlocks := by
  cases w with
  | reused b l =>
    have hlen := h.length
    rw [List.length_cons] at hlen
    unfold Segment.freeBlocks
    dsimp only
    omega
  | unused ho =>
    unfold Segment.freeBlocks
    dsimp only
    omega

/-- A segment with a free block hands one out. -/
theorem createBlock_spec (h : Chained B f s l) (hf : 0 < s.freeBlocks) :
    ∃ b s' l', s.createBlock B f = .ok (b, s') ∧ Handed s l b s' l' := by
  have hhead := h.head
  have hlen := h.length
  unfold createBlock
  cases l with
  | nil =>
    have hdel : s.header.deletedBlocks = 0 := hlen.symm
    have hnone : s.header.freeNodesHead = none := hhead.symm
    have ho : s.header.occupiedBlocks < s.header.allocatedBlocks := by
      unfold Segment.freeBlocks at hf
      omega
    refine ⟨_, _, _, ?_, .unused ho⟩
    simp only [hdel, hnone, lt_irrefl, if_false, Option.isSome_none, Bool.false_eq_true, ho, if_true]
  | cons b l =>
    have hsome : s.header.freeNodesHead = some b := hhead.symm
    rw [List.length_cons] at hlen
    refine ⟨b, _, l, ?_, .reused b l⟩
    rw [if_pos (by omega)]
    simp only [hsome]
    cases l with
    | nil =>
      rw [if_neg (by rw [← hlen]; exact lt_irrefl _)]
      rfl
    | cons c l =>
      have hnext : s.getIDInBlock B f b = .ok c := (List.isChain_cons_cons.mp h.linked).1
      rw [List.length_cons] at hlen
      rw [if_pos (by omega), hnext]
      rfl

/-- The header after a deletion. -/
def afterDelete (s : Segment) (id : ℕ) : Segment :=
  { s with header := { s.header with
    freeNodesHead := some id, deletedBlocks := s.header.deletedBlocks + 1 } }

/-- Deleting a block puts it in front of the chain and writes nowhere but into the block. -/
theorem deleteBlock_spec (h : Chained B f s l) (hin : Inside B f s) (hb : b < s.header.allocatedBlocks)
    (hl : b ∉ l) :
    ∃ f', s.deleteBlock B f b = .ok (f', s.afterDelete b) ∧ f'.size = f.size ∧
      ByteFile.Changed (s.start B b) (s.start B b + B.bytes) f f' ∧
      Chained B f' (s.afterDelete b) (b :: l) := by
  have hB := B.header_le
  have hhead := h.head
  have hlen := h.length
  have hend := hin.start_le hb
  have hlt : ∀ a ∈ b :: l, a < s.header.allocatedBlocks := by
    intro a ha
    rcases List.mem_cons.mp ha with rfl | ha
    · exact hb
    · exact h.lt a ha
  have hnodup : (b :: l).Nodup := List.nodup_cons.mpr ⟨hl, h.nodup⟩
  unfold deleteBlock
  cases l with
  | nil =>
    have hdel : s.header.deletedBlocks = 0 := hlen.symm
    have hnone : s.header.freeNodesHead = none := hhead.symm
    refine ⟨f, ?_, rfl, .refl _ _ f, { h with
      head := rfl
      length := congrArg (· + 1) hlen
      nodup := hnodup
      lt := hlt
      linked := .singleton b }⟩
    simp only [afterDelete, hdel, hnone, lt_irrefl, if_false, Option.isSome_none, Bool.false_eq_true]
  | cons c l =>
    have hsome : s.header.freeNodesHead = some c := hhead.symm
    rw [List.length_cons] at hlen
    have hc : c < UInt64.size := lt_trans (h.lt c List.mem_cons_self) h.fits
    have hch : ByteFile.Changed (s.start B b) (s.start B b + B.bytes) f
        (f.pwrite (bytesOf 8 c) (s.start B b)) := by
      have w := ByteFile.Changed.pwrite f (bytesOf 8 c) (s.start B b)
      rw [length_bytesOf] at w
      exact ⟨w.size_le, fun j hj hd => w.same j hj (by omega)⟩
    have hsize : (f.pwrite (bytesOf 8 c) (s.start B b)).size = f.size := by
      simp only [ByteFile.size_pwrite, length_bytesOf]
      omega
    have hold : Chained B (f.pwrite (bytesOf 8 c) (s.start B b)) s (c :: l) := by
      refine h.frame hin hch fun a ha => ?_
      have hne : a ≠ b := fun he => hl (he ▸ ha)
      exact start_disjoint hne
    refine ⟨_, ?_, hsize, hch, { hold with
      head := rfl
      length := by simp only [afterDelete, List.length_cons]; omega
      nodup := hnodup
      lt := hlt
      linked := List.isChain_cons_cons.mpr ⟨getIDInBlock_stored hin hb hc, hold.linked⟩ }⟩
    rw [if_pos (by omega)]
    simp only [hsome, storeIDInBlock_eq hin hb]
    rfl

@[simp] theorem fileOffset_afterDelete : (s.afterDelete b).fileOffset = s.fileOffset := rfl

@[simp] theorem allocated_afterDelete :
    (s.afterDelete b).header.allocatedBlocks = s.header.allocatedBlocks := rfl

@[simp] theorem occupied_afterDelete :
    (s.afterDelete b).header.occupiedBlocks = s.header.occupiedBlocks := rfl

/-! ## Reading and writing blocks -/

theorem readBlock_frame (hin : Inside B f s) (hb : b < s.header.allocatedBlocks) (c : ByteFile.Changed lo hi f f')
    (hd : s.start B b + B.bytes ≤ lo ∨ hi ≤ s.start B b) : s.readBlock B f' b = s.readBlock B f b := by
  unfold readBlock
  rw [hin.blockAt_eq hb, c.pread (hin.start_le hb) hd]

/-- A block is written where it is meant to be. -/
theorem writeBlock_eq (hin : Inside B f s) (hb : b < s.header.allocatedBlocks) (data : Block B) :
    s.writeBlock B f b data = .ok (f.pwrite data.val (s.start B b)) := by
  have hlt := hin.start_lt hb
  unfold writeBlock writeOrRaise
  rw [hin.blockAt_eq hb, data.property, if_pos hlt]

theorem readBlock_written (hin : Inside B f s) (hb : b < s.header.allocatedBlocks) (data : Block B) :
    s.readBlock B (f.pwrite data.val (s.start B b)) b = .ok data := by
  have hread : (f.pwrite data.val (s.start B b)).pread B.bytes (s.start B b) = data.val := by
    have h := ByteFile.pread_pwrite f data.val (s.start B b)
    rwa [data.property] at h
  unfold readBlock
  rw [hin.blockAt_eq hb]
  simp only [hread]
  exact dif_pos data.property

theorem changed_written (f : ByteFile) (s : Segment) (b : ℕ) (data : Block B) :
    ByteFile.Changed (s.start B b) (s.start B b + B.bytes) f (f.pwrite data.val (s.start B b)) := by
  have w := ByteFile.Changed.pwrite f data.val (s.start B b)
  rwa [data.property] at w

theorem size_written (hin : Inside B f s) (hb : b < s.header.allocatedBlocks) (data : Block B) :
    (f.pwrite data.val (s.start B b)).size = f.size := by
  have hend := hin.start_le hb
  simp only [ByteFile.size_pwrite, data.property]
  omega

/-- The header is written where the segment starts. -/
theorem flush_eq (h : s.fileOffset + 48 < ByteFile.limit) :
    s.flush f = .ok (f.pwrite s.header.toBytes s.fileOffset) := by
  unfold flush writeOrRaise
  rw [SegmentHeader.length_toBytes, if_pos h]

/-- A flushed header is loaded again. -/
theorem load_flushed (hfits : s.header.Fits) (hsize : s.header.blockSize = B.bytes) :
    load B (f.pwrite s.header.toBytes s.fileOffset) s.fileOffset = .ok s := by
  have hread : (f.pwrite s.header.toBytes s.fileOffset).pread 48 s.fileOffset = s.header.toBytes := by
    have w := ByteFile.pread_pwrite f s.header.toBytes s.fileOffset
    rwa [SegmentHeader.length_toBytes] at w
  unfold load
  simp only [hread, SegmentHeader.length_toBytes, SegmentHeader.ofBytes_toBytes hfits, hsize, ne_eq,
    not_true_eq_false, if_false]

theorem size_flushed (hin : Inside B f s) : (f.pwrite s.header.toBytes s.fileOffset).size = f.size := by
  have hB := B.header_le
  have hroom := hin.room
  unfold extent at hroom
  simp only [ByteFile.size_pwrite, SegmentHeader.length_toBytes]
  omega

theorem changed_flushed (f : ByteFile) (s : Segment) :
    ByteFile.Changed s.fileOffset (s.fileOffset + 48) f (f.pwrite s.header.toBytes s.fileOffset) := by
  have w := ByteFile.Changed.pwrite f s.header.toBytes s.fileOffset
  rwa [SegmentHeader.length_toBytes] at w

theorem load_frame (c : ByteFile.Changed lo hi f f') {o : ℕ} (hr : o + 48 ≤ f.size)
    (hd : o + 48 ≤ lo ∨ hi ≤ o) : load B f' o = load B f o := by
  unfold load
  rw [c.pread hr hd]

end Segment

end BEpsilon.File
