import BEpsilon.Lib.Slots
import BEpsilon.Buffer.PageProg

/-!
# BEpsilon.BTree.Node — the nodes of the B-tree

The two node layouts of `BNode.h` and the wrapper that tells them apart.  The capacities are the
`LEAF_N` and `INNER_N` of `NodeSizes`.
-/

namespace BEpsilon.BTree

open Slots

/-- Capacities of the nodes.  `BNodeWrapper` asserts statically what `INNER_N` has to be; nothing in it rules out
leaves of one pair, with which `splitLeafNode` fails its assert. -/
structure NodeSizes where
  LEAF_N : ℕ
  INNER_N : ℕ
  leaf_ge : 2 ≤ LEAF_N
  inner_ge : 3 ≤ INNER_N
  inner_odd : INNER_N % 2 = 1

structure BInnerNode (K : Type) where
  pivots : Slots K
  children : Slots PageId
  /-- amount of pivots -/
  size : ℕ := 0

structure BLeafNode (K V : Type) where
  keys : Slots K
  values : Slots V
  size : ℕ := 0

/-- `BNodeWrapper`: the data of a page, as a leaf or as an inner node. -/
inductive BNode (K V : Type) : Type
  | leaf (n : BLeafNode K V)
  | inner (n : BInnerNode K)

structure Header where
  rootID : PageId := 0
  leafRoot : Bool := true

namespace BNode

variable {K V : Type}

def isLeaf : BNode K V → Bool
  | leaf _ => true
  | inner _ => false

@[simp] theorem isLeaf_leaf (n : BLeafNode K V) : (leaf n).isLeaf = true := rfl

@[simp] theorem isLeaf_inner (n : BInnerNode K) : (inner n : BNode K V).isLeaf = false := rfl

/-- A node as `initializeNode` leaves it.  The code leaves the arrays as the memory of the page was; no routine of
the B-tree reads a slot before it has stored to it, so that `default` may stand there. -/
def fresh [Inhabited K] [Inhabited V] (isLeaf : Bool) : BNode K V :=
  if isLeaf then leaf ⟨fun _ => default, fun _ => default, 0⟩
  else inner ⟨fun _ => default, fun _ => 0, 0⟩

end BNode

/-- Programs of the B-tree. -/
abbrev BProg (K V : Type) : Type → Type 1 := PageProg (BNode K V) Header

section Access

variable {K V : Type}

/-- `accessNode(page).asLeaf()` -/
def asLeaf (page : PageId) : BProg K V (BLeafNode K V) := do
  match ← PageProg.read page with
  | .leaf n => return n
  | .inner _ => PageProg.badCast

/-- `accessNode(page).asInner()` -/
def asInner (page : PageId) : BProg K V (BInnerNode K) := do
  match ← PageProg.read page with
  | .leaf _ => PageProg.badCast
  | .inner n => return n

end Access

end BEpsilon.BTree
