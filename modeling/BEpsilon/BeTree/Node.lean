import Mathlib.Data.List.Sort
import BEpsilon.Lib.Slots
import BEpsilon.Buffer.PageProg
import BEpsilon.BeTree.Upsert

/-!
# BEpsilon.BeTree.Node — the nodes of the Bε-tree

The three node layouts of `BeNode.h` and the wrapper that tells them apart.  The capacities are
`LEAF_N`, `INNER_B_N`, `INNER_N` and `ROOT_N` of `NodeSizes`, with what `BeNodeWrapper` asserts about
them statically.  `Unspecified` stands for what the language and its library leave open.
-/

namespace BEpsilon.BeTree

open Slots

/-- Capacities of the nodes, with the static asserts of `BeNodeWrapper`. -/
structure NodeSizes where
  LEAF_N : ℕ
  /-- messages of an inner node -/
  INNER_B_N : ℕ
  INNER_N : ℕ
  ROOT_N : ℕ
  buffer_le : INNER_B_N ≤ LEAF_N
  inner_ge : 3 ≤ INNER_N
  inner_odd : INNER_N % 2 = 1

/-- Capacities that the tree works with; the first new children of a split root take
`INNER_N / 2` pivots each and one pivot stays between them. -/
structure NodeSizes.Roomy (N : NodeSizes) : Prop where
  leaf_ge : 3 ≤ N.LEAF_N
  buffer_pos : 1 ≤ N.INNER_B_N
  root_odd : N.ROOT_N % 2 = 1
  root_ge : N.INNER_N ≤ N.ROOT_N
  root_mod : N.ROOT_N % (N.INNER_N / 2 + 1) ≠ 0

/-- The smallest capacities that the tree works with. -/
def NodeSizes.smallest : NodeSizes := ⟨3, 1, 3, 3, by decide, le_rfl, rfl⟩

theorem NodeSizes.smallest_roomy : NodeSizes.smallest.Roomy := ⟨le_rfl, le_rfl, rfl, le_rfl, by decide⟩

/-- `(LEAF_N - 1)` must be an upper bound to enable preemptive splitting. -/
def NodeSizes.MAX_FLUSH_SIZE (N : NodeSizes) : ℕ := N.LEAF_N - 1

structure UpsertBuffer (K V : Type) where
  upserts : Slots (Upsert K V)
  size : ℕ := 0

structure BeRootNode (K : Type) where
  pivots : Slots K
  children : Slots PageId
  /-- amount of pivots -/
  size : ℕ := 0

structure BeInnerNode (K V : Type) where
  upserts : UpsertBuffer K V
  pivots : Slots K
  children : Slots PageId
  /-- amount of pivots -/
  size : ℕ := 0

structure BeLeafNode (K V : Type) where
  keys : Slots K
  values : Slots V
  size : ℕ := 0

/-- `BeNodeWrapper`: the data of a page, as a node of one of the three types. -/
inductive BeNode (K V : Type) : Type
  | root (n : BeRootNode K)
  | inner (n : BeInnerNode K V)
  | leaf (n : BeLeafNode K V)

structure Header where
  rootID : PageId := 0
  /-- `std::atomic_uint64_t` -/
  currentTimeStamp : ℕ := 0
  rootLeaf : Bool := true

/-- Messages for the children of a node, by child index: an `std::unordered_map`. -/
abbrev MessageMap (K V : Type) : Type := List (ℕ × List (Upsert K V))

/-- What the memory of a page holds in the arrays of a node before the node is made in it: `new` sets their
sizes, and the time stamps and types of messages, but neither keys nor values nor children. -/
structure Leftover (K V : Type) where
  keys : Slots K
  values : Slots V
  upserts : Slots (K × V)
  pivots : Slots K
  children : Slots PageId

instance Leftover.instInhabited {K V : Type} [Inhabited K] [Inhabited V] : Inhabited (Leftover K V) :=
  ⟨⟨fun _ => default, fun _ => default, fun _ => default, fun _ => default, fun _ => 0⟩⟩

/-- What the language and its library leave open: the order that `std::sort` gives to message blocks of one
size, when it sorts references to blocks of the sizes `sizes` starting with the largest, the order in which an
`std::unordered_map` is traversed, and what the memory of a new page holds. -/
structure Unspecified (K V : Type) where
  largestFirst : (sizes : List ℕ) → List ℕ
  largestFirst_perm : ∀ sizes, (largestFirst sizes).Perm (List.range sizes.length)
  largestFirst_sorted : ∀ sizes,
    (largestFirst sizes).Pairwise fun i j => sizes.getD j 0 ≤ sizes.getD i 0
  traverse : MessageMap K V → MessageMap K V
  traverse_perm : ∀ m, (traverse m).Perm m
  memory : PageId → Leftover K V

/-- Blocks of one size in their order, maps in the order in which they are written out, and clean memory. -/
def Unspecified.basic (K V : Type) [Inhabited K] [Inhabited V] : Unspecified K V where
  largestFirst sizes := (List.range sizes.length).insertionSort fun i j => sizes.getD j 0 ≤ sizes.getD i 0
  largestFirst_perm sizes := List.perm_insertionSort _ _
  largestFirst_sorted sizes := by
    have htotal : Std.Total fun i j => sizes.getD j 0 ≤ sizes.getD i 0 := ⟨fun _ _ => Nat.le_total _ _⟩
    have htrans : IsTrans ℕ fun i j => sizes.getD j 0 ≤ sizes.getD i 0 := ⟨fun _ _ _ h h' => h'.trans h⟩
    exact List.pairwise_insertionSort _ _
  traverse m := m
  traverse_perm _ := List.Perm.refl _
  memory _ := default

section Fresh

variable {K V : Type} (m : Leftover K V)

def BeRootNode.fresh : BeRootNode K := ⟨m.pivots, m.children, 0⟩

def BeInnerNode.fresh : BeInnerNode K V :=
  ⟨⟨fun i => ⟨(m.upserts i).1, (m.upserts i).2, UInt64.size - 1, .INVALID⟩, 0⟩, m.pivots, m.children, 0⟩

def BeLeafNode.fresh : BeLeafNode K V := ⟨m.keys, m.values, 0⟩

end Fresh

/-! ### Changing a node in place -/

section Change

variable {K V : Type}

/-- The messages of a buffer. -/
def UpsertBuffer.toList (b : UpsertBuffer K V) : List (Upsert K V) := Slots.toList b.upserts b.size

/-- Replace the messages of a buffer. -/
def UpsertBuffer.assign (b : UpsertBuffer K V) (l : List (Upsert K V)) : UpsertBuffer K V :=
  ⟨Slots.assign b.upserts l, l.length⟩

/-- Inserts the pivot of a split child and its right page into the root. -/
def BeRootNode.insertPivot (n : BeRootNode K) (childIndex : ℕ) (middleKey : K) (rightID : PageId) :
    BeRootNode K :=
  { pivots := insertAt n.pivots n.size childIndex middleKey
    children := insertAt n.children (n.size + 1) (childIndex + 1) rightID
    size := n.size + 1 }

/-- Puts a new pair at index `keyIndex` of a leaf. -/
def BeLeafNode.insertPair (n : BeLeafNode K V) (keyIndex : ℕ) (key : K) (value : V) :
    BeLeafNode K V :=
  { keys := insertAt n.keys n.size keyIndex key
    values := insertAt n.values n.size keyIndex value
    size := n.size + 1 }

/-- Deletes the pair at index `keyIndex` of a leaf. -/
def BeLeafNode.erasePair (n : BeLeafNode K V) (keyIndex : ℕ) : BeLeafNode K V :=
  { keys := eraseAt n.keys n.size keyIndex
    values := eraseAt n.values n.size keyIndex
    size := n.size - 1 }

/-- Changes the value at index `keyIndex` of a leaf. -/
def BeLeafNode.setValue (n : BeLeafNode K V) (keyIndex : ℕ) (value : V) : BeLeafNode K V :=
  { n with values := Function.update n.values keyIndex value }

end Change

/-! ### Access -/

/-- Programs of the Bε-tree. -/
abbrev BeProg (K V : Type) : Type → Type 1 := PageProg (BeNode K V) Header

section Access

variable {K V : Type}

/-- `accessNode(page).asRoot()` -/
def asRoot (page : PageId) : BeProg K V (BeRootNode K) := do
  match ← PageProg.read page with
  | .root n => return n
  | _ => PageProg.badCast

/-- `accessNode(page).asInner()` -/
def asInner (page : PageId) : BeProg K V (BeInnerNode K V) := do
  match ← PageProg.read page with
  | .inner n => return n
  | _ => PageProg.badCast

/-- `accessNode(page).asLeaf()` -/
def asLeaf (page : PageId) : BeProg K V (BeLeafNode K V) := do
  match ← PageProg.read page with
  | .leaf n => return n
  | _ => PageProg.badCast

end Access

end BEpsilon.BeTree
