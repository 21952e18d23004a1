import BEpsilon.BTree.Node

/-!
# BEpsilon.BTree.Program — the operations of the B-tree

The text of `BTree.h`, routine by routine, as programs over the page buffer.  Pages are referred to
by their ids; a node that a routine changes in place is read, changed and written back.  `insert`
descends optimistically first (`exclusiveMode = false`, latch coupling with shared latches down to
an exclusively latched leaf) and, when the leaf is full, a second time with exclusive latches,
splitting full nodes on the way.  An assert that a node has the type as which the lines after it access
the node is left to that access, which fails too.
-/

namespace BEpsilon.BTree

open Slots PageProg

variable {K V : Type} [LinearOrder K] [DecidableEq V] [Add V] [Inhabited K] [Inhabited V]
variable (N : NodeSizes)

/-- Splits a leaf and returns the new right page, still latched, and a copy of the middle key. -/
def splitLeafNode (page : PageId) : BProg K V (PageId × K) := do
  let leafNode ← asLeaf page
  check (2 ≤ leafNode.size)
  let splitIndex := (leafNode.size - 1) / 2
  let resultKey := leafNode.keys splitIndex
  let rightPage ← createPage
  pinPage rightPage (.fixed true) true
  let rightLeaf : BLeafNode K V :=
    { keys := moveTo leafNode.keys (splitIndex + 1) leafNode.size (fun _ => default) 0
      values := moveTo leafNode.values (splitIndex + 1) leafNode.size (fun _ => default) 0
      size := leafNode.size / 2 }
  write rightPage (.leaf rightLeaf)
  write page (.leaf { leafNode with size := leafNode.size - rightLeaf.size })
  return (rightPage, resultKey)

/-- Splits an inner node and returns the new right page, still latched, and the removed pivot. -/
def splitInnerNode (page : PageId) : BProg K V (PageId × K) := do
  let innerNode ← asInner page
  check (2 ≤ innerNode.size)
  let splitIndex := (innerNode.size - 1) / 2
  let resultKey := innerNode.pivots splitIndex
  let rightPage ← createPage
  pinPage rightPage (.fixed true) true
  let rightInnerNode : BInnerNode K :=
    { pivots := moveTo innerNode.pivots (splitIndex + 1) innerNode.size (fun _ => default) 0
      children := moveTo innerNode.children (splitIndex + 1) (innerNode.size + 1) (fun _ => 0) 0
      size := innerNode.size / 2 }
  write rightPage (.inner rightInnerNode)
  write page (.inner { innerNode with size := innerNode.size - rightInnerNode.size - 1 })
  return (rightPage, resultKey)

/-- Inserts the pivot of a split child and its right page into the parent. -/
def BInnerNode.insertPivot (n : BInnerNode K) (pivotIndex : ℕ) (middleKey : K) (rightID : PageId) :
    BInnerNode K :=
  { pivots := insertAt n.pivots n.size pivotIndex middleKey
    children := insertAt n.children (n.size + 1) (pivotIndex + 1) rightID
    size := n.size + 1 }

/-- Puts a new pair at index `keyIndex` of a leaf. -/
def BLeafNode.insertPair (n : BLeafNode K V) (keyIndex : ℕ) (key : K) (value : V) :
    BLeafNode K V :=
  { keys := insertAt n.keys n.size keyIndex key
    values := insertAt n.values n.size keyIndex value
    size := n.size + 1 }

/-- Is the key in slot `i` of this leaf, live or not, equal to `key`? -/
def keyAt (i : ℕ) (key : K) : BNode K V → Bool
  | .leaf n => n.keys i == key
  | .inner _ => false

/-- The end of `insertTraversal`: put the pair into `targetPage` at `keyIndex`.  `keyIt` still points
to slot `itIndex` of `itPage`, the leaf that was searched before a split. -/
def performInsert (key : K) (value : V) (itPage : PageId) (itIndex : ℕ) (targetPage : PageId)
    (keyIndex : ℕ) (split : Bool) : BProg K V Bool := do
  let targetLeafNode ← asLeaf targetPage
  let found ← if keyIndex < targetLeafNode.size then peek itPage (keyAt itIndex key) else pure false
  if found then
    if targetLeafNode.values keyIndex = value then
      unpinPage targetPage split
      return true
    else
      write targetPage (.leaf { targetLeafNode with
        values := Function.update targetLeafNode.values keyIndex value })
      unpinPage targetPage true
      return true
  else
    write targetPage (.leaf (targetLeafNode.insertPair keyIndex key value))
    unpinPage targetPage true
    return true

/-- `insertTraversal` below a leaf child: split the leaf when it is full, then put the pair. -/
def insertIntoLeaf (key : K) (value : V) (exclusiveMode : Bool) (parentPage : PageId)
    (dirtyParent : Bool) (parentNode : BInnerNode K) (pivotIndex : ℕ) (childPage : PageId)
    (leafNode : BLeafNode K V) : BProg K V Bool := do
  let keyIndex := lowerBound leafNode.keys leafNode.size key
  check (leafNode.size ≤ N.LEAF_N)
  if leafNode.size = N.LEAF_N then
    if !exclusiveMode then
      unpinPage childPage false
      return false
    else
      let (rightPage, middleKey) ← splitLeafNode childPage
      write parentPage (.inner (parentNode.insertPivot pivotIndex middleKey rightPage))
      unpinPage parentPage true
      if key ≤ middleKey then
        unpinPage rightPage true
        performInsert key value childPage keyIndex childPage keyIndex true
      else
        let leftNode ← asLeaf childPage
        unpinPage childPage true
        performInsert key value childPage keyIndex rightPage (keyIndex - leftNode.size) true
  else
    if exclusiveMode then
      unpinPage parentPage dirtyParent
    performInsert key value childPage keyIndex childPage keyIndex false

/-- `insertTraversal` above an inner child: split it when it is full and we may, then answer the page
to go on from and whether it is dirty. -/
def insertBelowInner (key : K) (exclusiveMode : Bool) (parentPage : PageId) (dirtyParent : Bool)
    (parentNode : BInnerNode K) (pivotIndex : ℕ) (childPage : PageId) (innerNode : BInnerNode K) :
    BProg K V (PageId × Bool) := do
  check (innerNode.size ≤ N.INNER_N)
  if innerNode.size = N.INNER_N ∧ exclusiveMode = true then
    let (rightPage, middleKey) ← splitInnerNode childPage
    write parentPage (.inner (parentNode.insertPivot pivotIndex middleKey rightPage))
    unpinPage parentPage true
    if key ≤ middleKey then
      unpinPage rightPage true
      return (childPage, true)
    else
      unpinPage childPage true
      return (rightPage, true)
  else
    if exclusiveMode then
      unpinPage parentPage dirtyParent
    return (childPage, false)

/-- One call of `insertTraversal` on the page `parentPage`: `inl` is the recursive call. -/
def insertTraversal (key : K) (value : V) (exclusiveMode : Bool) :
    PageId × Bool → BProg K V ((PageId × Bool) ⊕ Bool)
  | (parentPage, dirtyParent) => do
    let parentNode ← asInner parentPage
    check (!exclusiveMode || parentNode.size < N.INNER_N)
    let pivotIndex := lowerBound parentNode.pivots parentNode.size key
    let childPage := parentNode.children pivotIndex
    pinPage childPage (.modeFunction fun page => exclusiveMode || page.isLeaf) false
    if !exclusiveMode then
      unpinPage parentPage false
    match ← read childPage with
    | .leaf leafNode =>
      return .inr (← insertIntoLeaf N key value exclusiveMode parentPage dirtyParent parentNode
        pivotIndex childPage leafNode)
    | .inner innerNode =>
      return .inl (← insertBelowInner N key exclusiveMode parentPage dirtyParent parentNode
        pivotIndex childPage innerNode)

/-- The new root above `middleKey`, whose left child is the page it is initialised on. -/
def newRootNode (middleKey : K) (newRoot rightPage : PageId) : BInnerNode K :=
  { pivots := Function.update (fun _ => default) 0 middleKey
    children := Function.update (Function.update (fun _ => 0) 0 newRoot) 1 rightPage
    size := 1 }

/-- Creates a new root over the root page and `rightPage` and swaps it with the root page. -/
def createRoot (middleKey : K) (rootPage rightPage : PageId) : BProg K V PageId := do
  let newRoot ← createPage
  pinPage newRoot (.fixed true) true
  let rootNode ← read rootPage
  write newRoot rootNode
  write rootPage (.inner (newRootNode middleKey newRoot rightPage))
  return newRoot

def handleRootInnerInsert (key : K) (value : V) (rootPage : PageId) (exclusiveMode : Bool) :
    BProg K V Bool := do
  let header ← getHeader
  check (rootPage = header.rootID)
  let innerNode ← asInner rootPage
  check (innerNode.size ≤ N.INNER_N)
  if innerNode.size = N.INNER_N ∧ exclusiveMode = true then
    -- full root: split it preemptively
    let (rightPage, middleKey) ← splitInnerNode rootPage
    let newRoot ← createRoot middleKey rootPage rightPage
    unpinPage rootPage true
    if key ≤ middleKey then
      unpinPage rightPage true
      Prog.iter (insertTraversal N key value exclusiveMode) (newRoot, true)
    else
      unpinPage newRoot true
      Prog.iter (insertTraversal N key value exclusiveMode) (rightPage, true)
  else
    Prog.iter (insertTraversal N key value exclusiveMode) (rootPage, false)

/-- The end of `handleRootLeafInsert`: put the pair into `targetPage` at `keyIndex`. -/
def performRootInsert (key : K) (value : V) (targetPage : PageId) (keyIndex : ℕ) :
    BProg K V Unit := do
  let targetLeafNode ← asLeaf targetPage
  if keyIndex < targetLeafNode.size ∧ targetLeafNode.keys keyIndex = key then
    write targetPage (.leaf { targetLeafNode with
      values := Function.update targetLeafNode.values keyIndex value })
    unpinPage targetPage true
  else
    write targetPage (.leaf (targetLeafNode.insertPair keyIndex key value))
    unpinPage targetPage true

def handleRootLeafInsert (key : K) (value : V) (rootPage : PageId) : BProg K V Unit := do
  let header ← getHeader
  check (rootPage = header.rootID)
  let leafNode ← asLeaf rootPage
  let keyIndex := lowerBound leafNode.keys leafNode.size key
  if keyIndex < leafNode.size ∧ leafNode.keys keyIndex = key then
    if leafNode.values keyIndex ≠ value then
      write rootPage (.leaf { leafNode with
        values := Function.update leafNode.values keyIndex value })
      unpinPage rootPage true
    else
      unpinPage rootPage false
  else
    check (leafNode.size ≤ N.LEAF_N)
    if leafNode.size = N.LEAF_N then
      let (rightPage, middleKey) ← splitLeafNode rootPage
      let newRoot ← createRoot middleKey rootPage rightPage
      let _ ← modifyHeader fun h => { h with leafRoot := false }
      unpinPage rootPage true
      if key ≤ middleKey then
        unpinPage rightPage true
        performRootInsert key value newRoot keyIndex
      else
        let leftNode ← asLeaf newRoot
        unpinPage newRoot true
        performRootInsert key value rightPage (keyIndex - leftNode.size)
    else
      performRootInsert key value rootPage keyIndex

/-- Inserts `(key, value)`; an existing `key` gets overwritten. -/
def insert (key : K) (value : V) : BProg K V Unit := do
  let header ← getHeader
  pinPage header.rootID (.fixed header.leafRoot) false
  match ← read header.rootID with
  | .leaf _ =>
    check (← getHeader).leafRoot
    handleRootLeafInsert N key value header.rootID
  | .inner _ =>
    check (!(← getHeader).leafRoot)
    let success ← handleRootInnerInsert N key value header.rootID false
    if !success then
      pinPage header.rootID (.fixed true) false
      let _ ← handleRootInnerInsert N key value header.rootID true

/-- One step of the descents of `update`, `erase` and `find`: `inl` goes on below, `inr` is the leaf
that was reached. -/
def descend (key : K) (mode : LatchMode (BNode K V)) (currentPage : PageId) :
    BProg K V (PageId ⊕ PageId) := do
  match ← read currentPage with
  | .leaf _ => return .inr currentPage
  | .inner currentNode =>
    let childID := currentNode.children (lowerBound currentNode.pivots currentNode.size key)
    pinPage childID mode false
    unpinPage currentPage false
    return .inl childID

/-- Pin the root, exclusively when it is a leaf, and descend to the exclusively latched leaf. -/
def descendToLeaf (key : K) : BProg K V PageId := do
  let header ← getHeader
  pinPage header.rootID (.fixed false) false
  if (← read header.rootID).isLeaf then
    -- repin uniquely
    unpinPage header.rootID false
    pinPage header.rootID (.fixed true) false
  Prog.iter (descend key (.modeFunction BNode.isLeaf)) header.rootID

/-- Updates `(key, o)` with `o + value`; does nothing if `key` does not exist. -/
def update (key : K) (value : V) : BProg K V Unit := do
  let currentPage ← descendToLeaf key
  let leafNode ← asLeaf currentPage
  let keyIndex := lowerBound leafNode.keys leafNode.size key
  if keyIndex < leafNode.size ∧ leafNode.keys keyIndex = key then
    write currentPage (.leaf { leafNode with
      values := Function.update leafNode.values keyIndex (leafNode.values keyIndex + value) })
    unpinPage currentPage true
  else
    unpinPage currentPage false

/-- Removes `key`; does nothing if `key` does not exist. -/
def erase (key : K) : BProg K V Unit := do
  let currentPage ← descendToLeaf key
  let leafNode ← asLeaf currentPage
  let keyIndex := lowerBound leafNode.keys leafNode.size key
  if keyIndex < leafNode.size ∧ leafNode.keys keyIndex = key then
    check (1 ≤ leafNode.size)
    write currentPage (.leaf
      { keys := eraseAt leafNode.keys leafNode.size keyIndex
        values := eraseAt leafNode.values leafNode.size keyIndex
        size := leafNode.size - 1 })
    unpinPage currentPage true
  else
    unpinPage currentPage false

/-- Attempts to find `key` and returns its value. -/
def find (key : K) : BProg K V (Option V) := do
  let header ← getHeader
  pinPage header.rootID (.fixed false) false
  let currentPage ← Prog.iter (descend key (.fixed false)) header.rootID
  let leafNode ← asLeaf currentPage
  let result := lookup leafNode.keys leafNode.values leafNode.size key
  unpinPage currentPage false
  return result

/-- The constructor on an empty directory: the root page is created as a leaf. -/
def create : BProg K V Unit := do
  let rootID ← createPage
  let _ ← modifyHeader fun h => { h with rootID := rootID }
  pinPage rootID (.fixed true) true
  write rootID (.fresh true)
  unpinPage rootID true

end BEpsilon.BTree
