import Mathlib.Tactic.Ring
import Mathlib.Data.List.GetD

/-!
# BEpsilon.Lib.Bytes — files as byte maps, and numbers as little-endian bytes

`ByteFile` is a file: one byte at each offset, zero from its size on (so that a later write past the
end leaves a hole of zeros).  `pread` may come back short, `pwrite` may extend the file.  No file has
`ByteFile.limit` bytes; `resize` is an `ftruncate` whose failure goes unnoticed.  The lemmas are the three a
block store needs: what was written is read back, a read next to a write does not see it, and growing a file
keeps what it holds.  `bytesOf`/`natOf` turn a number into `k` bytes and back.
-/

namespace BEpsilon

/-- A file: its bytes and its size; there is nothing but zeros from `size` on. -/
structure ByteFile where
  bytes : ℕ → UInt8
  size : ℕ
  zero_past : ∀ j, size ≤ j → bytes j = 0

namespace ByteFile

/-- A file that was just created. -/
def empty : ByteFile := ⟨fun _ => 0, 0, fun _ _ => rfl⟩

/-- At most `count` bytes from `offset` on, fewer where the file ends. -/
def pread (f : ByteFile) (count offset : ℕ) : List UInt8 :=
  (List.range (min count (f.size - offset))).map fun i => f.bytes (offset + i)

/-- Write `data` at `offset`. -/
def pwrite (f : ByteFile) (data : List UInt8) (offset : ℕ) : ByteFile where
  bytes j := if offset ≤ j ∧ j < offset + data.length then data.getD (j - offset) 0 else f.bytes j
  size := max f.size (offset + data.length)
  zero_past j hj := by
    rw [if_neg (by omega)]
    exact f.zero_past j (by omega)

/-- Cut the file or fill it up with zeros. -/
def ftruncate (f : ByteFile) (n : ℕ) : ByteFile where
  bytes j := if j < n then f.bytes j else 0
  size := n
  zero_past j hj := if_neg (by omega)

/-- `2 ^ 63`: sizes and offsets are numbers of type `off_t`. -/
def limit : ℕ := 9223372036854775808

/-- `ftruncate` whose result is not looked at: it does nothing for a size that no file can have. -/
def resize (f : ByteFile) (n : ℕ) : ByteFile := if n < limit then f.ftruncate n else f

variable {f : ByteFile} {data : List UInt8} {count offset o n : ℕ}

theorem resize_of_lt (h : n < limit) : f.resize n = f.ftruncate n := if_pos h

@[simp] theorem size_empty : empty.size = 0 := rfl

@[simp] theorem size_pwrite : (f.pwrite data o).size = max f.size (o + data.length) := rfl

@[simp] theorem size_ftruncate : (f.ftruncate n).size = n := rfl

/-- A read that ends inside the file is not short. -/
theorem length_pread (h : offset + count ≤ f.size) : (f.pread count offset).length = count := by
  simp only [pread, List.length_map, List.length_range]
  omega

/-- Two files that agree on a range are read alike there. -/
theorem pread_congr {f' : ByteFile} (h : offset + count ≤ f.size) (h' : offset + count ≤ f'.size)
    (hb : ∀ j, offset ≤ j → j < offset + count → f'.bytes j = f.bytes j) :
    f'.pread count offset = f.pread count offset := by
  have hm : min count (f'.size - offset) = min count (f.size - offset) := by omega
  unfold pread
  rw [hm]
  refine List.map_congr_left fun i hi => ?_
  have hi' := List.mem_range.mp hi
  exact hb _ (by omega) (by omega)

/-- What was written is read back. -/
theorem pread_pwrite (f : ByteFile) (data : List UInt8) (o : ℕ) :
    (f.pwrite data o).pread data.length o = data := by
  refine List.ext_getElem ?_ fun i h₁ h₂ => ?_
  · rw [length_pread]
    exact le_max_right _ _
  · simp only [pread, pwrite, List.getElem_map, List.getElem_range]
    rw [if_pos ⟨by omega, by omega⟩, Nat.add_sub_cancel_left]
    exact List.getD_eq_getElem _ _ h₂

/-- Going from `f` to `f'` changes nothing of what `f` holds outside `[lo, hi)`. -/
structure Changed (lo hi : ℕ) (f f' : ByteFile) : Prop where
  size_le : f.size ≤ f'.size
  same : ∀ j < f.size, j < lo ∨ hi ≤ j → f'.bytes j = f.bytes j

theorem Changed.refl (lo hi : ℕ) (f : ByteFile) : Changed lo hi f f :=
  ⟨le_rfl, fun _ _ _ => rfl⟩

theorem Changed.pwrite (f : ByteFile) (data : List UInt8) (o : ℕ) :
    Changed o (o + data.length) f (f.pwrite data o) :=
  ⟨le_max_left _ _, fun _ _ _ => if_neg (by omega)⟩

theorem Changed.ftruncate {f : ByteFile} {n : ℕ} (h : f.size ≤ n) (lo : ℕ) :
    Changed lo lo f (f.ftruncate n) :=
  ⟨h, fun _ _ _ => if_pos (by omega)⟩

/-- A read beside the change. -/
theorem Changed.pread {lo hi : ℕ} {f f' : ByteFile} (c : Changed lo hi f f')
    (h : offset + count ≤ f.size) (hd : offset + count ≤ lo ∨ hi ≤ offset) :
    f'.pread count offset = f.pread count offset :=
  pread_congr h (le_trans h c.size_le) fun j _ _ => c.same j (by omega) (by omega)

end ByteFile

/-- The `k` low bytes of a number, the lowest first. -/
def bytesOf : ℕ → ℕ → List UInt8
  | 0, _ => []
  | k + 1, n => UInt8.ofNat n :: bytesOf k (n / 256)

/-- The number that little-endian bytes stand for. -/
def natOf : List UInt8 → ℕ
  | [] => 0
  | b :: bs => b.toNat + 256 * natOf bs

@[simp] theorem length_bytesOf (k n : ℕ) : (bytesOf k n).length = k := by
  induction k generalizing n with
  | zero => rfl
  | succ k ih => simp only [bytesOf, List.length_cons, ih]

theorem natOf_bytesOf {k n : ℕ} (h : n < 256 ^ k) : natOf (bytesOf k n) = n := by
  induction k generalizing n with
  | zero =>
    rw [pow_zero] at h
    simp only [bytesOf, natOf]
    omega
  | succ k ih =>
    have hk : n / 256 < 256 ^ k := by
      rw [pow_succ] at h
      exact (Nat.div_lt_iff_lt_mul (by decide)).mpr h
    have hb : (UInt8.ofNat n).toNat = n % 256 := UInt8.toNat_ofNat' ..
    simp only [bytesOf, natOf, ih hk, hb]
    omega

end BEpsilon
