import BEpsilon.BeTree.Messages

/-!
# BEpsilon.BeTree.Program — the operations of the Bε-tree

The text of `BeTree.h`, routine by routine, as programs over the page buffer.  Pages are referred to
by their ids; a node that a routine changes in place is read, changed and written back.  A mutation
draws its time stamp and goes to `upsert`, which tries an optimistic attempt first (the root latched
shared) and repeats it with the root latched exclusively when the root, the leaf below it or the inner
node below it has to be split.  Full buffers are flushed level by level through a queue.  An assert that a
node has the type as which the lines after it access the node is left to that access, which fails too.
-/

namespace BEpsilon.BeTree

open Slots PageProg

variable {K V : Type} [LinearOrder K] [BoundedOrder K] [DecidableEq V] [Add V] [Inhabited K] [Inhabited V]
variable (N : NodeSizes) (O : Unspecified K V)

/-! ### Splitting nodes -/

/-- Splits a leaf at `medianKey` and returns the new right page, still latched, and the key. -/
def splitLeafNode (page : PageId) (medianKey : K) : BeProg K V (PageId × K) := do
  let leafNode ← asLeaf page
  check (2 ≤ leafNode.size)
  let medianIndex := min (upperBound leafNode.keys leafNode.size medianKey) leafNode.size
  let resultKey := medianKey
  let rightPage ← createPage
  pinPage rightPage (.fixed true) true
  let newLeaf := BeLeafNode.fresh (O.memory rightPage)
  let rightLeaf : BeLeafNode K V :=
    { keys := moveTo leafNode.keys medianIndex leafNode.size newLeaf.keys 0
      values := moveTo leafNode.values medianIndex leafNode.size newLeaf.values 0
      size := leafNode.size - medianIndex }
  write rightPage (.leaf rightLeaf)
  write page (.leaf { leafNode with size := leafNode.size - rightLeaf.size })
  return (rightPage, resultKey)

/-- Splits an inner node and its buffer and returns the new right page, still latched, and the removed
pivot. -/
def splitInnerNode (page : PageId) : BeProg K V (PageId × K) := do
  let innerNode ← asInner page
  check (2 ≤ innerNode.size)
  let splitIndex := (innerNode.size - 1) / 2
  let resultKey := innerNode.pivots splitIndex
  let rightPage ← createPage
  pinPage rightPage (.fixed true) true
  -- the upserts to the right of the pivot
  let (upserts, it) :=
    removeIf (fun upsert => resultKey < upsert.key) innerNode.upserts.upserts innerNode.upserts.size
  let newNode : BeInnerNode K V := BeInnerNode.fresh (O.memory rightPage)
  let rightInnerNode : BeInnerNode K V :=
    { pivots := moveTo innerNode.pivots (splitIndex + 1) innerNode.size newNode.pivots 0
      children := moveTo innerNode.children (splitIndex + 1) (innerNode.size + 1) newNode.children 0
      size := innerNode.size / 2
      upserts :=
        { upserts := moveTo upserts it innerNode.upserts.size newNode.upserts.upserts 0
          size := innerNode.upserts.size - it } }
  write rightPage (.inner rightInnerNode)
  write page (.inner { innerNode with
    size := innerNode.size - rightInnerNode.size - 1
    upserts :=
      { upserts := upserts, size := innerNode.upserts.size - rightInnerNode.upserts.size } })
  return (rightPage, resultKey)

/-- The state of the loop of `splitRootNode`. -/
structure RootSplit (K : Type) where
  rootNode : BeRootNode K
  newRootSize : ℕ := 0
  newChildren : List PageId := []
  midPivots : List K := []

/-- One round of the loop of `splitRootNode`, from pivot `i` on. -/
def splitRootChild : ℕ × RootSplit K → BeProg K V ((ℕ × RootSplit K) ⊕ RootSplit K)
  | (i, s) => do
    let childPivots := N.INNER_N / 2
    let rootNode := s.rootNode
    if i < rootNode.size then
      -- number of pivot elements the child will receive
      let lastIteration := decide (rootNode.size ≤ i + (childPivots + 1))
      let pivots := min childPivots (rootNode.size - i)
      let newChild ← createPage
      pinPage newChild (.fixed true) true
      let newNode := BeInnerNode.fresh (O.memory newChild)
      let childNode : BeInnerNode K V :=
        { newNode with
          pivots := moveTo rootNode.pivots i (i + pivots) newNode.pivots 0
          children := moveTo rootNode.children i (i + pivots + 1) newNode.children 0
          size := pivots }
      write newChild (.inner childNode)
      if lastIteration then
        return .inl (i + (childPivots + 1), { s with
          rootNode := { rootNode with
            children := Function.update rootNode.children s.newRootSize newChild }
          newChildren := s.newChildren ++ [newChild] })
      else
        -- move the upcoming separator pivot to the left
        return .inl (i + (childPivots + 1),
          { rootNode := { rootNode with
              pivots := Function.update rootNode.pivots s.newRootSize (rootNode.pivots (i + pivots))
              children := Function.update rootNode.children s.newRootSize newChild }
            newRootSize := s.newRootSize + 1
            newChildren := s.newChildren ++ [newChild]
            midPivots := s.midPivots ++ [rootNode.pivots (i + pivots)] })
    else return .inr s

/-- Splits the root node below itself and returns the new children, still latched, and the pivots
between them. -/
def splitRootNode (rootPage : PageId) : BeProg K V (List PageId × List K) := do
  let rootNode ← asRoot rootPage
  let s ← Prog.iter (splitRootChild N O) (0, { rootNode := rootNode })
  write rootPage (.root { s.rootNode with size := s.newRootSize })
  return (s.newChildren, s.midPivots)

/-- The median key of a leaf and messages for it. -/
def medianKeyOf (leafNode : BeLeafNode K V) (upserts : List (Upsert K V)) : BeProg K V K :=
  match findMedianKey leafNode.keys leafNode.size (fun i => (upserts.getD i default).key)
    upserts.length with
  | some medianKey => return medianKey
  | none => PageProg.raise .invalidElements

/-! ### Flushing messages -/

/-- Removes message blocks from the inner node of a page. -/
def removeMessages (page : PageId) (additionalUpserts : List (Upsert K V)) :
    BeProg K V (MessageMap K V) := do
  let innerNode ← asInner page
  check (innerNode.removeMessagesAsserts N additionalUpserts N.MAX_FLUSH_SIZE)
  let (innerNode, result) := innerNode.removeMessages N O additionalUpserts N.MAX_FLUSH_SIZE
  check (innerNode.removedAsserts result)
  write page (.inner innerNode)
  return result

/-- What the loop of `handleTraversalNode` collects. -/
structure Traversal (K V : Type) where
  newPivots : List (ℕ × K × PageId) := []
  leafMessages : List (PageId × Option (K × PageId) × List (Upsert K V)) := []
  queue : List (PageId × MessageMap K V)

/-- Base case of the traversal: the child is a leaf, which is split when its messages may not fit. -/
def handleLeafChild (childIndex : ℕ) (vector : List (Upsert K V)) (childPage : PageId)
    (leafChild : BeLeafNode K V) (t : Traversal K V) : BeProg K V (Traversal K V) := do
  if needToSplit N leafChild leafChild.size [] vector then
    let medianKey ← medianKeyOf leafChild vector
    let (rightPage, middleKey) ← splitLeafNode O childPage medianKey
    return { t with
      newPivots := t.newPivots ++ [(childIndex, middleKey, rightPage)]
      leafMessages := t.leafMessages ++ [(childPage, some (middleKey, rightPage), vector)] }
  else
    return { t with leafMessages := t.leafMessages ++ [(childPage, none, vector)] }

/-- Puts a page with its messages into the queue, or frees it when it has none. -/
def enqueue (page : PageId) (messageMap : MessageMap K V) (queue : List (PageId × MessageMap K V)) :
    BeProg K V (List (PageId × MessageMap K V)) := do
  if messageMap.isEmpty then
    unpinPage page true
    return queue
  else
    return queue ++ [(page, messageMap)]

/-- The child is an inner node, which stores its messages or is put into the queue, both halves of it
when it has to be split. -/
def handleInnerChild (childIndex : ℕ) (vector : List (Upsert K V)) (childPage : PageId)
    (innerChild : BeInnerNode K V) (t : Traversal K V) : BeProg K V (Traversal K V) := do
  if vector.length ≤ N.INNER_B_N - innerChild.upserts.size then
    -- the child has enough space for its addressed messages
    let upserts := mergeUpserts innerChild.upserts.toList vector
    write childPage (.inner { innerChild with upserts := innerChild.upserts.assign upserts })
    check (isSorted upserts && noAdjacentKeys upserts)
    unpinPage childPage true
    return t
  else
    let messageMap ← removeMessages N O childPage vector
    if N.INNER_N - innerChild.size < messageMap.length then
      -- we need to split the child
      let (rightPage, middleKey) ← splitInnerNode O childPage
      let leftNode ← asInner childPage
      let (leftMap, rightMap) := splitMap leftNode.size (O.traverse messageMap)
      check (leftMap.noneTwice && rightMap.noneTwice)
      check (!leftMap.isEmpty || !rightMap.isEmpty)
      let queue ← enqueue childPage leftMap t.queue
      let queue ← enqueue rightPage rightMap queue
      return { t with newPivots := t.newPivots ++ [(childIndex, middleKey, rightPage)], queue := queue }
    else
      return { t with queue := t.queue ++ [(childPage, messageMap)] }

/-- One round of the loop over the message map: pin the child and split it if necessary. -/
def handleChild (currentNode : BeInnerNode K V) (t : Traversal K V) :
    ℕ × List (Upsert K V) → BeProg K V (Traversal K V)
  | (childIndex, vector) => do
    check (decide (childIndex ≤ currentNode.size) && isSorted vector)
    let childPage := currentNode.children childIndex
    pinPage childPage (.fixed true) false
    match ← read childPage with
    | .leaf leafChild => handleLeafChild N O childIndex vector childPage leafChild t
    | .inner innerChild => handleInnerChild N O childIndex vector childPage innerChild t
    | .root _ => PageProg.badCast

/-- Applies a message to a leaf child, or to its right half. -/
def performMessage (childPage : PageId) (splitResult : Option (K × PageId)) (upsert : Upsert K V) :
    BeProg K V Unit := do
  -- determine the target node
  let targetPage := match splitResult with
    | some (middleKey, rightPage) => if middleKey < upsert.key then rightPage else childPage
    | none => childPage
  let targetNode ← asLeaf targetPage
  let keyIndex := lowerBound targetNode.keys targetNode.size upsert.key
  let found := keyIndex < targetNode.size ∧ targetNode.keys keyIndex = upsert.key
  match upsert.type with
  | .DELETE =>
    if found then write targetPage (.leaf (targetNode.erasePair keyIndex))
  | .UPDATE =>
    if found then
      write targetPage (.leaf (targetNode.setValue keyIndex (targetNode.values keyIndex + upsert.value)))
  | .INSERT =>
    if found then write targetPage (.leaf (targetNode.setValue keyIndex upsert.value))
    else
      check (targetNode.size < N.LEAF_N)
      check (decide (keyIndex < N.LEAF_N) && decide (targetNode.keys keyIndex ≠ upsert.key))
      write targetPage (.leaf (targetNode.insertPair keyIndex upsert.key upsert.value))
  | .INVALID => return ()

/-- Applies the messages of a leaf child and frees its pages. -/
def handleLeafMessages : PageId × Option (K × PageId) × List (Upsert K V) → BeProg K V Unit
  | (childPage, splitResult, vector) => do
    Prog.forFold (fun _ upsert => performMessage N childPage splitResult upsert) vector ()
    unpinPage childPage true
    match splitResult with
    | some (_, rightPage) => unpinPage rightPage true
    | none => return ()

/-- Hands the messages of an inner node to its children, and answers the new queue. -/
def handleTraversalNode (currentPage : PageId) (messageMap : MessageMap K V)
    (queue : List (PageId × MessageMap K V)) : BeProg K V (List (PageId × MessageMap K V)) := do
  let currentNode ← asInner currentPage
  let t ← Prog.forFold (handleChild N O currentNode) (O.traverse messageMap) { queue := queue }
  -- insert the pivots into the parent
  let newPivots := sortPivots t.newPivots
  check (currentNode.insertPivotsAsserts N newPivots)
  write currentPage (.inner (currentNode.insertPivots newPivots))
  -- unlock the parent
  unpinPage currentPage true
  -- now handle the leaf messages (if there are any)
  Prog.forFold (fun _ m => handleLeafMessages N m) t.leafMessages ()
  return t.queue

/-- The level order traversal: one round of the loop over the queue. -/
def traverseQueue : List (PageId × MessageMap K V) →
    BeProg K V (List (PageId × MessageMap K V) ⊕ Unit)
  | [] => return .inr ()
  | (currentPage, messageMap) :: queue => do
    return .inl (← handleTraversalNode N O currentPage messageMap queue)

/-! ### Upserts below a root node -/

/-- The end of `handleRootRootUpsert` at a leaf: apply the message to `targetPage` and free it. -/
def performLeafUpsert (upsert : Upsert K V) (targetPage : PageId) : BeProg K V Bool := do
  let targetNode ← asLeaf targetPage
  let keyIndex := lowerBound targetNode.keys targetNode.size upsert.key
  let found := keyIndex < targetNode.size ∧ targetNode.keys keyIndex = upsert.key
  match upsert.type with
  | .DELETE =>
    if found then
      write targetPage (.leaf (targetNode.erasePair keyIndex))
      unpinPage targetPage true
    else
      unpinPage targetPage false
  | .UPDATE =>
    if found then
      write targetPage (.leaf (targetNode.setValue keyIndex (targetNode.values keyIndex + upsert.value)))
      unpinPage targetPage true
    else
      unpinPage targetPage false
  | .INSERT =>
    if found then
      if targetNode.values keyIndex ≠ upsert.value then
        write targetPage (.leaf (targetNode.setValue keyIndex upsert.value))
        unpinPage targetPage true
      else
        unpinPage targetPage false
    else
      write targetPage (.leaf (targetNode.insertPair keyIndex upsert.key upsert.value))
      unpinPage targetPage true
  | .INVALID => pure ()
  return true

/-- 1) The target is a leaf. -/
def handleLeafTarget (upsert : Upsert K V) (exclusiveMode : Bool) (rootPage : PageId)
    (childIndex : ℕ) (splitRoot : Bool) (targetPage : PageId) (leafNode : BeLeafNode K V) :
    BeProg K V Bool := do
  check (leafNode.size ≤ N.LEAF_N)
  if upsert.type = .INSERT ∧ leafNode.size = N.LEAF_N then
    if !exclusiveMode then
      -- retry required (the parent was already freed)
      unpinPage targetPage false
      return false
    else
      -- full leaf -> split it
      let medianKey ← medianKeyOf leafNode [upsert]
      let (rightPage, middleKey) ← splitLeafNode O targetPage medianKey
      let rootNode ← asRoot rootPage
      write rootPage (.root (rootNode.insertPivot childIndex middleKey rightPage))
      unpinPage rootPage true
      if upsert.key ≤ middleKey then
        unpinPage rightPage true
        performLeafUpsert upsert targetPage
      else
        unpinPage targetPage true
        performLeafUpsert upsert rightPage
  else
    if exclusiveMode then
      unpinPage rootPage splitRoot
    performLeafUpsert upsert targetPage

/-- 2) The target is an inner node. -/
def handleInnerTarget (upsert : Upsert K V) (exclusiveMode : Bool) (rootPage : PageId)
    (childIndex : ℕ) (splitRoot : Bool) (targetPage : PageId) (innerNode : BeInnerNode K V) :
    BeProg K V Bool := do
  let buffer := innerNode.upserts
  let upsertIndex := lowerBound (fun i => (buffer.upserts i).key) buffer.size upsert.key
  if upsertIndex < buffer.size ∧ (buffer.upserts upsertIndex).key = upsert.key then
    if exclusiveMode then
      unpinPage rootPage splitRoot
    -- squash the two upserts
    write targetPage (.inner { innerNode with upserts := { buffer with
      upserts := Function.update buffer.upserts upsertIndex
        (squashUpserts upsert (buffer.upserts upsertIndex)) } })
    unpinPage targetPage true
    return true
  else if buffer.size < N.INNER_B_N then
    if exclusiveMode then
      unpinPage rootPage splitRoot
    -- there is enough space in the buffer, insert sorted
    write targetPage (.inner { innerNode with upserts :=
      { upserts := insertAt buffer.upserts buffer.size upsertIndex upsert, size := buffer.size + 1 } })
    unpinPage targetPage true
    return true
  else if N.INNER_N < innerNode.size + 1 then
    if !exclusiveMode then
      -- retry required (the parent was already freed)
      unpinPage targetPage false
      return false
    else
      let targetMap ← removeMessages N O targetPage [upsert]
      check (targetMap.length = 1)
      let (rightPage, middleKey) ← splitInnerNode O targetPage
      let rootNode ← asRoot rootPage
      write rootPage (.root (rootNode.insertPivot childIndex middleKey rightPage))
      unpinPage rootPage true
      -- split the additional messages
      let leftNode ← asInner targetPage
      let (leftMap, rightMap) := splitMap leftNode.size (O.traverse targetMap)
      check (leftMap.noneTwice && rightMap.noneTwice)
      check (!leftMap.isEmpty || !rightMap.isEmpty)
      let queue ← enqueue targetPage leftMap []
      let queue ← enqueue rightPage rightMap queue
      Prog.iter (traverseQueue N O) queue
      return true
  else
    if exclusiveMode then
      unpinPage rootPage splitRoot
    let targetMap ← removeMessages N O targetPage [upsert]
    Prog.iter (traverseQueue N O) [(targetPage, targetMap)]
    return true

/-- The child of the root that receives the message, pinned, and its index.  A full root is split
first; the new children that do not receive the message are freed. -/
def pinTarget (upsert : Upsert K V) (rootPage : PageId) (rootNode : BeRootNode K) :
    BeProg K V (PageId × ℕ × Bool) := do
  if rootNode.size = N.ROOT_N then
    let (children, midPivots) ← splitRootNode N O rootPage
    let childIndex := lowerBound (fun i => midPivots.getD i default) midPivots.length upsert.key
    Prog.forFold (fun _ (child : PageId) => unpinPage child true) (children.eraseIdx childIndex) ()
    return (children.getD childIndex 0, childIndex, true)
  else
    let childIndex := lowerBound rootNode.pivots rootNode.size upsert.key
    pinPage (rootNode.children childIndex) (.fixed true) false
    return (rootNode.children childIndex, childIndex, false)

/-- Answers `false` if a split, and thus another attempt, is required. -/
def handleRootRootUpsert (upsert : Upsert K V) (rootPage : PageId) (exclusiveMode : Bool) :
    BeProg K V Bool := do
  check (rootPage = (← getHeader).rootID)
  let rootNode ← asRoot rootPage
  check (rootNode.size ≤ N.ROOT_N)
  if rootNode.size = N.ROOT_N ∧ exclusiveMode = false then
    -- retry required
    unpinPage rootPage false
    return false
  else
    let (targetPage, childIndex, splitRoot) ← pinTarget N O upsert rootPage rootNode
    if !exclusiveMode then
      -- release the parent here already
      unpinPage rootPage false
    match ← read targetPage with
    | .leaf leafNode =>
      handleLeafTarget N O upsert exclusiveMode rootPage childIndex splitRoot targetPage leafNode
    | .inner innerNode =>
      handleInnerTarget N O upsert exclusiveMode rootPage childIndex splitRoot targetPage innerNode
    | .root _ => PageProg.badCast

/-! ### Upserts into a root leaf -/

/-- Creates a root node over the leaf of the root page, which moves to a new page, and `rightPage`;
answers the new page. -/
def createRoot (middleKey : K) (rootPage rightPage : PageId) : BeProg K V PageId := do
  let newRoot ← createPage
  pinPage newRoot (.fixed true) true
  let newNode := BeRootNode.fresh (O.memory newRoot)
  let newRootNode : BeRootNode K :=
    { pivots := Function.update newNode.pivots 0 middleKey
      children := Function.update (Function.update newNode.children 0 newRoot) 1 rightPage
      size := 1 }
  -- swap with the root
  let rootNode ← read rootPage
  write newRoot rootNode
  write rootPage (.root newRootNode)
  let _ ← modifyHeader fun h => { h with rootLeaf := false }
  unpinPage rootPage true
  return newRoot

/-- The insertion of a new pair into a root leaf that is not full, or into its half. -/
def performRootInsert (upsert : Upsert K V) (targetPage : PageId) (keyIndex : ℕ) : BeProg K V Unit := do
  let targetLeafNode ← asLeaf targetPage
  write targetPage (.leaf (targetLeafNode.insertPair keyIndex upsert.key upsert.value))
  unpinPage targetPage true

def handleRootLeafUpsert (upsert : Upsert K V) (rootPage : PageId) : BeProg K V Unit := do
  check (rootPage = (← getHeader).rootID)
  let leafNode ← asLeaf rootPage
  let keyIndex := lowerBound leafNode.keys leafNode.size upsert.key
  let found := keyIndex < leafNode.size ∧ leafNode.keys keyIndex = upsert.key
  match upsert.type with
  | .DELETE =>
    if found then
      write rootPage (.leaf (leafNode.erasePair keyIndex))
      unpinPage rootPage true
    else
      unpinPage rootPage false
  | .UPDATE =>
    if found then
      write rootPage (.leaf (leafNode.setValue keyIndex (leafNode.values keyIndex + upsert.value)))
      unpinPage rootPage true
    else
      unpinPage rootPage false
  | .INSERT =>
    if found then
      if leafNode.values keyIndex ≠ upsert.value then
        write rootPage (.leaf (leafNode.setValue keyIndex upsert.value))
        unpinPage rootPage true
      else
        unpinPage rootPage false
    else
      check (leafNode.size ≤ N.LEAF_N)
      if leafNode.size = N.LEAF_N then
        -- full leaf -> split it
        let medianKey ← medianKeyOf leafNode [upsert]
        let (rightPage, middleKey) ← splitLeafNode O rootPage medianKey
        let newRoot ← createRoot O middleKey rootPage rightPage
        if upsert.key ≤ middleKey then
          unpinPage rightPage true
          performRootInsert upsert newRoot keyIndex
        else
          -- adjust the key index
          let newRootNode ← asLeaf newRoot
          unpinPage newRoot true
          performRootInsert upsert rightPage (keyIndex - newRootNode.size)
      else
        performRootInsert upsert rootPage keyIndex
  | .INVALID => return ()

/-! ### The calls -/

def upsert (u : Upsert K V) : BeProg K V Unit := do
  let header ← getHeader
  pinPage header.rootID (.fixed header.rootLeaf) false
  match ← read header.rootID with
  | .leaf _ =>
    -- first case: the root node is a leaf node (direct insert)
    check (← getHeader).rootLeaf
    handleRootLeafUpsert N O u header.rootID
  | _ =>
    -- second case: the root node is a root node
    check (!(← getHeader).rootLeaf)
    let success ← handleRootRootUpsert N O u header.rootID false
    if !success then
      let rootPage := (← getHeader).rootID
      pinPage rootPage (.fixed true) false
      let _ ← handleRootRootUpsert N O u rootPage true

/-- `++header.currentTimeStamp` -/
def nextTimeStamp (timeStamp : ℕ) : ℕ := (timeStamp + 1) % UInt64.size

/-- Draws the time stamp of a message. -/
def drawTimeStamp : BeProg K V ℕ := do
  let header ← modifyHeader fun h => { h with currentTimeStamp := nextTimeStamp h.currentTimeStamp }
  return nextTimeStamp header.currentTimeStamp

/-- Inserts `(key, value)`; an existing `key` gets overwritten. -/
def insert (key : K) (value : V) : BeProg K V Unit := do
  let timeStamp ← drawTimeStamp
  upsert N O ⟨key, value, timeStamp, .INSERT⟩

/-- Updates `(key, o)` with `o + value`; does nothing if `key` does not exist. -/
def update (key : K) (value : V) : BeProg K V Unit := do
  let timeStamp ← drawTimeStamp
  upsert N O ⟨key, value, timeStamp, .UPDATE⟩

/-- Removes `key`; does nothing if `key` does not exist. -/
def erase (key : K) : BeProg K V Unit := do
  let timeStamp ← drawTimeStamp
  upsert N O ⟨key, default, timeStamp, .DELETE⟩

/-- What `find` has gathered on its way down: the value of an `INSERT`, and the updates above, the
deepest one first. -/
structure Gathered (V : Type) where
  currentValue : Option V := none
  accumulatedUpdates : List V := []

/-- The messages of one buffer: the state, the local updates and `deleted`. -/
def gatherMessage (s : Option V × List V × Bool) (upsert : Upsert K V) : Option V × List V × Bool :=
  match upsert.type with
  | .DELETE => (none, [], true)
  | .UPDATE => (s.1, s.2.1 ++ [upsert.value], s.2.2)
  | .INSERT => (some upsert.value, [], false)
  | .INVALID => s

/-- One inner node on the way of `find`, and whether it ends the search. -/
def gather (innerNode : BeInnerNode K V) (key : K) (s : Gathered V) : Gathered V × Bool :=
  let buffer := innerNode.upserts
  let first := lowerBound (fun i => (buffer.upserts i).key) buffer.size key
  let block := (buffer.toList.drop first).takeWhile fun upsert => upsert.key = key
  let (currentValue, localUpdates, deleted) := block.foldl gatherMessage (s.currentValue, [], false)
  let accumulatedUpdates := if deleted then [] else s.accumulatedUpdates
  (⟨currentValue, localUpdates.reverse ++ accumulatedUpdates⟩, deleted || currentValue.isSome)

/-- One round of the loop of `find`; `inr` is the leaf that was reached, if the search got there. -/
def findStep (key : K) : PageId × Gathered V →
    BeProg K V ((PageId × Gathered V) ⊕ (Option PageId × Gathered V))
  | (currentPage, s) => do
    match ← read currentPage with
    | .inner innerNode =>
      let (s, done) := gather innerNode key s
      if done then
        -- new insert or new delete -> break
        unpinPage currentPage false
        return .inr (none, s)
      else
        let nextPage := innerNode.children (lowerBound innerNode.pivots innerNode.size key)
        pinPage nextPage (.fixed false) false
        unpinPage currentPage false
        return .inl (nextPage, s)
    | _ => return .inr (some currentPage, s)

/-- Adds an update to the value, which has to be there. -/
def addUpdate (currentValue : Option V) (updateValue : V) : BeProg K V (Option V) := do
  check currentValue.isSome
  match currentValue with
  | some v => return some (v + updateValue)
  | none => PageProg.raise .noValue

/-- Attempts to find `key` and returns its value. -/
def find (key : K) : BeProg K V (Option V) := do
  let rootPage := (← getHeader).rootID
  pinPage rootPage (.fixed false) false
  match ← read rootPage with
  | .root rootNode =>
    let child := rootNode.children (lowerBound rootNode.pivots rootNode.size key)
    pinPage child (.fixed false) false
    unpinPage rootPage false
    let (currentPage, s) ← Prog.iter (findStep key) (child, {})
    let currentValue ← match currentPage with
      | some page => do
        let leafNode ← asLeaf page
        -- we may still need a base
        let currentValue := if s.currentValue.isSome then s.currentValue
          else lookup leafNode.keys leafNode.values leafNode.size key
        unpinPage page false
        pure currentValue
      | none => pure s.currentValue
    -- inserted or deleted (deleted -> no updates)
    Prog.forFold addUpdate s.accumulatedUpdates currentValue
  | _ =>
    unpinPage rootPage false
    return none

/-- The constructor on an empty directory: the root page is created as a leaf. -/
def create : BeProg K V Unit := do
  let rootID ← createPage
  let _ ← modifyHeader fun h => { h with rootID := rootID }
  pinPage rootID (.fixed true) true
  write rootID (.leaf (.fresh (O.memory rootID)))
  unpinPage rootID true

end BEpsilon.BeTree
