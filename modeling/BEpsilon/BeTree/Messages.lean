import BEpsilon.BeTree.Node
import Mathlib.Order.BoundedOrder.Basic
import Mathlib.Data.List.Sort

/-!
# BEpsilon.BeTree.Messages — the pure routines of the Bε-tree

The routines of `BeTree.h` that work on nodes and messages without pinning pages: the median of two
sorted inputs, the removal of message blocks from a full buffer, the estimate of the size of a leaf
and the insertion of several pivots at once.  Each assert of a routine is a `Bool` beside it.
-/

namespace BEpsilon.BeTree

open Slots Keyed

variable {K V : Type} [LinearOrder K]

/-- `std::is_sorted` on upserts. -/
def isSorted (l : List (Upsert K V)) : Bool :=
  (l.zip l.tail).all fun (a, b) => !b.lt a

/-- No two adjacent upserts have the same key: `std::adjacent_find`. -/
def noAdjacentKeys (l : List (Upsert K V)) : Bool :=
  (l.zip l.tail).all fun (a, b) => a.key ≠ b.key

/-! ### The median of two sorted inputs -/

section Median

variable [BoundedOrder K]

/-- The binary search of `findMedianKey`; `none` where it raises. -/
def medianSearch (first : Slots K) (firstSize : ℕ) (second : Slots K) (secondSize : ℕ)
    (low high : ℕ) : Option K :=
  if h : low ≤ high then
    let partX := (low + high) / 2
    let partY := (firstSize + secondSize + 1) / 2 - partX
    let leftX := if partX = 0 then ⊥ else first (partX - 1)
    let rightX := if firstSize ≤ partX then ⊤ else first partX
    let leftY := if partY = 0 then ⊥ else second (partY - 1)
    let rightY := if secondSize ≤ partY then ⊤ else second partY
    if leftX ≤ rightY ∧ leftY ≤ rightX then some (max leftX leftY)
    else if hx : rightY < leftX then
      medianSearch first firstSize second secondSize low (partX - 1)
    else medianSearch first firstSize second secondSize (partX + 1) high
  else none
termination_by high + 1 - low
decreasing_by
  · have : 0 < partX := by
      by_contra h0
      have hbot : leftX = ⊥ := if_pos (by omega)
      rw [hbot] at hx
      exact not_lt_bot hx
    omega
  · omega

/-- The median key of two sorted inputs; `0` and `SIZE_MAX` stand for what lies beyond their ends. -/
def findMedianKey (first : Slots K) (firstSize : ℕ) (second : Slots K) (secondSize : ℕ) : Option K :=
  if secondSize < firstSize then medianSearch second secondSize first firstSize 0 secondSize
  else medianSearch first firstSize second secondSize 0 firstSize

end Median

/-! ### Removing messages -/

/-- A message block: the messages of one child, and its index. -/
structure Block (K V : Type) where
  messages : List (Upsert K V)
  childIndex : ℕ

/-- The scan for blocks: `lastKey`, `lastChildIndex` and `block` are those of the current block. -/
def scanBlocks (childOf : K → ℕ) (lastKey : K) (lastChildIndex : ℕ) (block : List (Upsert K V)) :
    List (Upsert K V) → List (Block K V)
  | [] => [⟨block, lastChildIndex⟩]
  | u :: rest =>
    if u.key ≠ lastKey ∧ childOf u.key ≠ lastChildIndex then
      -- found a new message block -> add the last one
      ⟨block, lastChildIndex⟩ :: scanBlocks childOf u.key (childOf u.key) [u] rest
    else scanBlocks childOf lastKey lastChildIndex (block ++ [u]) rest

/-- The blocks of all messages. -/
def messageBlocks (childOf : K → ℕ) : List (Upsert K V) → List (Block K V)
  | [] => []
  | u :: rest => scanBlocks childOf u.key (childOf u.key) [u] rest

/-- The loop over the references to the blocks, which takes messages out of the blocks until enough
slots are free: the blocks without the messages taken, and those by child. -/
def collectBlocks (neededUpsertSlots maxRemoved : ℕ) (collectedSlots : ℕ) (blocks : List (Block K V))
    (result : MessageMap K V) : List ℕ → List (Block K V) × MessageMap K V
  | [] => (blocks, result)
  | ref :: refs =>
    if collectedSlots < neededUpsertSlots then
      match blocks[ref]? with
      | none => (blocks, result)
      | some b =>
        let blockSize := b.messages.length
        -- copy not more than maxRemoved
        let toRemove := if maxRemoved < collectedSlots + blockSize then maxRemoved - collectedSlots
          else blockSize
        collectBlocks neededUpsertSlots maxRemoved (collectedSlots + toRemove)
          (blocks.set ref { b with messages := b.messages.drop toRemove })
          (result ++ [(b.childIndex, b.messages.take toRemove)]) refs
    else (blocks, result)

/-- The messages that have to leave the buffer: |all messages| - |buffer size|. -/
def BeInnerNode.neededSlots (N : NodeSizes) (n : BeInnerNode K V)
    (additionalUpserts : List (Upsert K V)) : ℕ :=
  n.upserts.size + additionalUpserts.length - N.INNER_B_N

/-- The messages of the node and the additional ones. -/
def BeInnerNode.allMessages [Add V] (n : BeInnerNode K V) (additionalUpserts : List (Upsert K V)) :
    List (Upsert K V) := mergeUpserts n.upserts.toList additionalUpserts

/-- Removes message blocks and returns a message map. -/
def BeInnerNode.removeMessages [Add V] (N : NodeSizes) (O : Unspecified K V) (n : BeInnerNode K V)
    (additionalUpserts : List (Upsert K V)) (maxRemoved : ℕ) : BeInnerNode K V × MessageMap K V :=
  let blocks := messageBlocks (lowerBound n.pivots n.size) (n.allMessages additionalUpserts)
  let blockReferences := O.largestFirst (blocks.map fun b => b.messages.length)
  let (rest, result) :=
    collectBlocks (n.neededSlots N additionalUpserts) maxRemoved 0 blocks [] blockReferences
  -- move the rest back to the node
  ({ n with upserts := n.upserts.assign (rest.flatMap fun b => b.messages) }, result)

/-- The asserts of `removeMessages` that come before the loop over the blocks. -/
def BeInnerNode.removeMessagesAsserts [Add V] (N : NodeSizes) (n : BeInnerNode K V)
    (additionalUpserts : List (Upsert K V)) (maxRemoved : ℕ) : Bool :=
  decide (n.neededSlots N additionalUpserts ≤ maxRemoved) && isSorted n.upserts.toList &&
    isSorted additionalUpserts && isSorted (n.allMessages additionalUpserts) &&
    noAdjacentKeys (n.allMessages additionalUpserts)

/-- Its asserts about the vectors of the result and the buffer that is left. -/
def BeInnerNode.removedAsserts (n : BeInnerNode K V) (result : MessageMap K V) : Bool :=
  decide (result.map Prod.fst).Nodup && (result.all fun e => isSorted e.2) && isSorted n.upserts.toList

/-- The parts of a message map for the two halves of a node whose left half has `size` pivots. -/
def splitMap (size : ℕ) (messageMap : MessageMap K V) : MessageMap K V × MessageMap K V :=
  (messageMap.filter fun e => e.1 ≤ size,
    (messageMap.filter fun e => size < e.1).map fun e => (e.1 - size - 1, e.2))

/-- No child index twice: the asserts of the loops that fill the parts. -/
def MessageMap.noneTwice (messageMap : MessageMap K V) : Bool :=
  decide (messageMap.map Prod.fst).Nodup

/-! ### The future size of a leaf -/

/-- The estimate of the size of a leaf after its messages, which ends when the leaf gets too large.
A key counts as seen in the leaf only when it is its first one: the distance is taken from the found
position to the beginning, and cast to `std::size_t` it exceeds every size unless it is zero. -/
def needToSplit (N : NodeSizes) (leafChild : BeLeafNode K V) (futureSize : ℕ) (seenKeys : List K) :
    List (Upsert K V) → Bool
  | [] => false
  | upsert :: rest =>
    if upsert.type ≠ .INSERT ∧ upsert.type ≠ .DELETE then
      needToSplit N leafChild futureSize seenKeys rest
    else
      let seenBefore := seenKeys.contains upsert.key
      let seenKeys :=
        if seenBefore then seenKeys
        else if upsert.type = .INSERT then upsert.key :: seenKeys
        else seenKeys.filter (· ≠ upsert.key)
      let it := lowerBound leafChild.keys leafChild.size upsert.key
      let seen := seenBefore || (decide (it = 0 ∧ 0 < leafChild.size) && leafChild.keys it = upsert.key)
      let futureSize :=
        if upsert.type = .INSERT then futureSize + (if seen then 0 else 1)
        else if 1 ≤ futureSize then futureSize - (if seen then 1 else 0)
        else futureSize
      if N.LEAF_N < futureSize then true else needToSplit N leafChild futureSize seenKeys rest

/-! ### Inserting pivots -/

/-- The backward loop of `insertPivots` over the tuples (index of the split child, middle key, right
page), the last one first. -/
def insertPivotsFrom (pivots : Slots K) (children : Slots PageId) (lastFirst : ℕ) :
    List (ℕ × K × PageId) → Slots K × Slots PageId
  | [] => (pivots, children)
  | (index, key, child) :: rest =>
    let it := rest.length + 1
    -- move everything to the right
    let pivots := moveBackward pivots index lastFirst (lastFirst + it)
    let children := moveBackward children (index + 1) (lastFirst + 1) (lastFirst + it + 1)
    -- insert the pivot and its child
    insertPivotsFrom (Function.update pivots (index + it - 1) key)
      (Function.update children (index + it) child) index rest

/-- Inserts pivot elements; the tuples have to be sorted by index. -/
def BeInnerNode.insertPivots (n : BeInnerNode K V) (newPivots : List (ℕ × K × PageId)) :
    BeInnerNode K V :=
  let (pivots, children) := insertPivotsFrom n.pivots n.children n.size newPivots.reverse
  { n with pivots := pivots, children := children, size := n.size + newPivots.length }

/-- The asserts in the loop of `insertPivots`. -/
def insertPivotsFromAsserts (N : NodeSizes) (lastFirst : ℕ) : List (ℕ × K × PageId) → Bool
  | [] => true
  | (index, _) :: rest =>
    decide (index + rest.length < N.INNER_N) && decide (lastFirst + (rest.length + 1) ≤ N.INNER_N) &&
      insertPivotsFromAsserts N index rest

def BeInnerNode.insertPivotsAsserts (N : NodeSizes) (n : BeInnerNode K V)
    (newPivots : List (ℕ × K × PageId)) : Bool :=
  decide (n.size + newPivots.length ≤ N.INNER_N) &&
    ((newPivots.zip newPivots.tail).all fun (a, b) => a.1 < b.1 && a.2.1 < b.2.1) &&
    insertPivotsFromAsserts N n.size newPivots.reverse

/-- `std::sort` of the new pivots by their indices, which are distinct. -/
def sortPivots (newPivots : List (ℕ × K × PageId)) : List (ℕ × K × PageId) :=
  newPivots.insertionSort fun a b => a.1 ≤ b.1

end BEpsilon.BeTree
