import BEpsilon.Lib.Bytes
import BEpsilon.Lib.Slots

/-!
# BEpsilon.Lib.ObjectBytes — objects as the bytes they lie in

A `Codec` says how the objects of a C++ type lie in memory: their size, their alignment and their bytes.  `array`
and `field` are the layouts of an array and of a field that follows others, with the padding between them.
`C.Keeps a` says that the bytes of `a` are read back as `a`: a number must be small enough for its bytes, and an
array must be blank from its length on.
-/

namespace BEpsilon

variable {α β : Type}

/-- A type whose objects are nothing but their bytes. -/
class ObjectBytes (α : Type) where
  size : ℕ
  align : ℕ
  size_pos : 0 < size
  align_pos : 0 < align
  toBytes : α → List UInt8
  ofBytes : List UInt8 → α
  length_toBytes (a : α) : (toBytes a).length = size
  ofBytes_toBytes (a : α) : ofBytes (toBytes a) = a

/-- `std::uint64_t` -/
instance uint64Bytes : ObjectBytes UInt64 where
  size := 8
  align := 8
  size_pos := by decide
  align_pos := by decide
  toBytes a := bytesOf 8 a.toNat
  ofBytes l := UInt64.ofNat (natOf l)
  length_toBytes a := length_bytesOf 8 a.toNat
  ofBytes_toBytes a := by
    rw [natOf_bytesOf a.toNat_lt, UInt64.ofNat_toNat]

/-- How objects lie in memory. -/
structure Codec (α : Type) where
  size : ℕ
  align : ℕ
  align_pos : 0 < align
  toBytes : α → List UInt8
  ofBytes : List UInt8 → α
  length_toBytes : ∀ a, (toBytes a).length = size

/-- The next multiple of `a` from `n` on. -/
def alignUp (n a : ℕ) : ℕ := (n + (a - 1)) / a * a

theorem le_alignUp {a : ℕ} (n : ℕ) (ha : 0 < a) : n ≤ alignUp n a := by
  have hmod := Nat.div_add_mod' (n + (a - 1)) a
  have hlt := Nat.mod_lt (n + (a - 1)) ha
  unfold alignUp
  omega

/-- `l` and zeros behind it, `n` bytes. -/
def padTo (n : ℕ) (l : List UInt8) : List UInt8 := l ++ List.replicate (n - l.length) 0

theorem length_padTo {n : ℕ} {l : List UInt8} (h : l.length ≤ n) : (padTo n l).length = n := by
  rw [padTo, List.length_append, List.length_replicate]
  omega

theorem take_padTo {n k : ℕ} {l : List UInt8} (h : l.length = k) : (padTo n l).take k = l := List.take_left' h

namespace Codec

/-- The bytes of `a` are read back as `a`. -/
def Keeps (C : Codec α) (a : α) : Prop := C.ofBytes (C.toBytes a) = a

/-- `sizeof`, with the padding at the end. -/
def sizeof (C : Codec α) : ℕ := alignUp C.size C.align

theorem size_le_sizeof (C : Codec α) : C.size ≤ C.sizeof := le_alignUp _ C.align_pos

/-! ### Objects and numbers -/

/-- The objects of a type with bytes. -/
def object (α : Type) [ObjectBytes α] : Codec α where
  size := ObjectBytes.size α
  align := ObjectBytes.align α
  align_pos := ObjectBytes.align_pos
  toBytes := ObjectBytes.toBytes
  ofBytes := ObjectBytes.ofBytes
  length_toBytes := ObjectBytes.length_toBytes

theorem keeps_object [ObjectBytes α] (a : α) : (object α).Keeps a := ObjectBytes.ofBytes_toBytes a

/-- A number in a `std::uint64_t`. -/
def uint64 : Codec ℕ where
  size := 8
  align := 8
  align_pos := by decide
  toBytes := bytesOf 8
  ofBytes := natOf
  length_toBytes := length_bytesOf 8

theorem keeps_uint64 {n : ℕ} (h : n < UInt64.size) : uint64.Keeps n := natOf_bytesOf h

/-! ### Arrays -/

section Array

variable {C : Codec α} {a : Slots α} {n : ℕ}

/-- The bytes of the first `n` slots. -/
def slotBytes (C : Codec α) (n : ℕ) (a : Slots α) : List UInt8 := (List.range n).flatMap fun i => C.toBytes (a i)

theorem slotBytes_succ (C : Codec α) (n : ℕ) (a : Slots α) :
    C.slotBytes (n + 1) a = C.slotBytes n a ++ C.toBytes (a n) := by
  simp [slotBytes, List.range_succ]

theorem length_slotBytes (C : Codec α) (n : ℕ) (a : Slots α) : (C.slotBytes n a).length = n * C.size := by
  induction n with
  | zero => simp [slotBytes]
  | succ n ih => rw [slotBytes_succ, List.length_append, ih, C.length_toBytes, Nat.succ_mul]

/-- The bytes of one slot. -/
theorem slotBytes_slot {i : ℕ} (hi : i < n) :
    ((C.slotBytes n a).drop (i * C.size)).take C.size = C.toBytes (a i) := by
  induction n with
  | zero => omega
  | succ n ih =>
    have hlen := C.length_slotBytes n a
    rw [slotBytes_succ]
    rcases Nat.lt_succ_iff_lt_or_eq.mp hi with hi | rfl
    · have hroom : (i + 1) * C.size ≤ n * C.size := Nat.mul_le_mul_right _ hi
      rw [Nat.succ_mul] at hroom
      rw [List.drop_append_of_le_length (by omega), List.take_append_of_le_length (by rw [List.length_drop]; omega),
        ih hi]
    · rw [List.drop_left' hlen, List.take_of_length_le (C.length_toBytes _).le]

/-- `std::array<α, n>` -/
def array [Inhabited α] (C : Codec α) (n : ℕ) : Codec (Slots α) where
  size := n * C.size
  align := C.align
  align_pos := C.align_pos
  toBytes := C.slotBytes n
  ofBytes l i := if i < n then C.ofBytes ((l.drop (i * C.size)).take C.size) else default
  length_toBytes := C.length_slotBytes n

theorem keeps_array [Inhabited α] (ha : ∀ i < n, C.Keeps (a i)) (hblank : ∀ i, n ≤ i → a i = default) :
    (C.array n).Keeps a := by
  funext i
  simp only [array]
  split
  next hi => rw [slotBytes_slot hi, ha i hi]
  next hi => exact (hblank i (Nat.le_of_not_lt hi)).symm

end Array

/-! ### Fields -/

/-- Where a field that follows lies. -/
def offset (C : Codec α) (D : Codec β) : ℕ := alignUp C.size D.align

theorem size_le_offset (C : Codec α) (D : Codec β) : C.size ≤ C.offset D := le_alignUp _ D.align_pos

/-- The fields so far, and one more. -/
def field (C : Codec α) (D : Codec β) : Codec (α × β) where
  size := C.offset D + D.size
  align := max C.align D.align
  align_pos := lt_max_of_lt_left C.align_pos
  toBytes p := padTo (C.offset D) (C.toBytes p.1) ++ D.toBytes p.2
  ofBytes l := (C.ofBytes (l.take C.size), D.ofBytes (l.drop (C.offset D)))
  length_toBytes p := by
    rw [List.length_append, length_padTo ((C.length_toBytes _).trans_le (C.size_le_offset D)), D.length_toBytes]

theorem keeps_field {C : Codec α} {D : Codec β} {p : α × β} (h₁ : C.Keeps p.1) (h₂ : D.Keeps p.2) :
    (C.field D).Keeps p := by
  have hlen : (padTo (C.offset D) (C.toBytes p.1)).length = C.offset D :=
    length_padTo ((C.length_toBytes _).trans_le (C.size_le_offset D))
  simp only [Keeps, field]
  rw [List.take_append_of_le_length (by rw [hlen]; exact C.size_le_offset D), take_padTo (C.length_toBytes _),
    List.drop_left' hlen, h₁, h₂]

/-- An object is read from where it lies at the front of something larger. -/
theorem Keeps.ofBytes_padTo {C : Codec α} {a : α} (h : C.Keeps a) (n : ℕ) (l : List UInt8) :
    C.ofBytes ((padTo n (C.toBytes a) ++ l).take C.size) = a := by
  rw [padTo, List.append_assoc, List.take_left' (C.length_toBytes a), h]

end Codec

end BEpsilon
