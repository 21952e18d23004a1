import BEpsilon.Lib.Prog

/-!
# BEpsilon.Buffer.PageProg — what a tree asks of its page buffer

`PageCmd D H` lists the commands of a tree operation: `createPage`, `pinPage`, `unpinPage`, reads and
writes of the data of a page it holds a reference to, accesses to the header of the tree and the
asserts.  `D` is the data of a page (the node that the tree casts it to) and `H` the header.  The
ideal store `PageWorld` keeps every page in memory forever and checks the discipline on the way:
a page is pinned at most once at a time, only referenced pages are accessed, at most `limit` pages
are pinned, and `kept` records that every page whose data changed was released dirty.
-/

namespace BEpsilon

/-- `std::uint64_t` ids of pages. -/
abbrev PageId := ℕ

/-- The latch a `pinPage` call asks for: fixed, or chosen by a function of the data. -/
inductive LatchMode (D : Type) : Type
  | fixed (exclusive : Bool)
  | modeFunction (f : D → Bool)

/-- Is the page to be latched exclusively when its data is `d`? -/
def LatchMode.exclusive {D : Type} : LatchMode D → D → Bool
  | .fixed e, _ => e
  | .modeFunction f, d => f d

/-- What stops an operation.  `invalidElements` is an error that the code raises, `noValue` the access to
an empty optional. -/
inductive PageErr : Type
  | bufferFull
  | assertFailed
  | badCast
  | invalidElements
  | noValue
  | deadlock
  | notCreated
  | notReferenced
  deriving DecidableEq

/-- Commands of a tree operation.  `peek` reads one bit of a page through a pointer that may have
outlived the pin; `header f` returns the header and replaces it by its image under `f` in one step;
`check b` is `assert(b)`, and `raise e` an error of the tree itself. -/
inductive PageCmd (D H : Type) : Type → Type
  | createPage : PageCmd D H PageId
  | pinPage (id : PageId) (mode : LatchMode D) (skipLoad : Bool) : PageCmd D H Unit
  | unpinPage (id : PageId) (dirty : Bool) : PageCmd D H Unit
  | read (id : PageId) : PageCmd D H D
  | peek (id : PageId) (f : D → Bool) : PageCmd D H Bool
  | write (id : PageId) (d : D) : PageCmd D H Unit
  | header (f : H → H) : PageCmd D H H
  | check (b : Bool) : PageCmd D H Unit
  | raise (e : PageErr) : PageCmd D H Empty

/-- Programs of a tree operation. -/
abbrev PageProg (D H : Type) : Type → Type 1 := Prog (PageCmd D H)

namespace PageProg

variable {D H : Type}

def createPage : PageProg D H PageId := .cmd .createPage

def pinPage (id : PageId) (mode : LatchMode D) (skipLoad : Bool) : PageProg D H Unit :=
  .cmd (.pinPage id mode skipLoad)

def unpinPage (id : PageId) (dirty : Bool) : PageProg D H Unit := .cmd (.unpinPage id dirty)

def read (id : PageId) : PageProg D H D := .cmd (.read id)

def peek (id : PageId) (f : D → Bool) : PageProg D H Bool := .cmd (.peek id f)

def write (id : PageId) (d : D) : PageProg D H Unit := .cmd (.write id d)

def getHeader : PageProg D H H := .cmd (.header fun h => h)

def modifyHeader (f : H → H) : PageProg D H H := .cmd (.header f)

def check (b : Bool) : PageProg D H Unit := .cmd (.check b)

def raise {α : Type} (e : PageErr) : PageProg D H α := .call (.raise e) Empty.elim

/-- An access to a page as a node that it is not. -/
def badCast {α : Type} : PageProg D H α := raise .badCast

end PageProg

/-! ### The ideal store -/

/-- The rules a run is held to: are asserts compiled in, how many pages may be pinned at once, and
the ids that `SegmentManager::createBlock` hands out. -/
structure PageRules where
  asserts : Bool
  limit : Option ℕ
  ids : ℕ → PageId
  ids_inj : ∀ i j, ids i = ids j → i = j

/-- Asserts compiled in and room for every page. -/
def PageRules.ideal (R : PageRules) : PageRules := { R with asserts := true, limit := none }

/-- Pages kept in memory forever.  `mem id` is `none` until the page is first written; `pins` lists
the pinned pages with their data at the pin, `recent` the pages released since the last `pinPage`. -/
structure PageWorld (D H : Type) where
  mem : PageId → Option D
  created : ℕ
  header : H
  pins : List (PageId × Option D)
  recent : List PageId
  kept : Prop

namespace PageWorld

variable {D H : Type}

/-- No page was created yet. -/
def empty (header : H) : PageWorld D H := ⟨fun _ => none, 0, header, [], [], True⟩

/-- May the page be accessed through a reference? -/
def referenced (w : PageWorld D H) (id : PageId) : Bool :=
  (w.pins.any fun p => p.1 == id) || w.recent.contains id

/-- Has `createPage` handed out this id? -/
def isCreated (R : PageRules) (w : PageWorld D H) (id : PageId) : Bool :=
  (List.range w.created).any fun i => R.ids i == id

/-- The commands on the ideal store. -/
def handler (R : PageRules) : Handler (PageCmd D H) PageErr (PageWorld D H)
  | _, .createPage, w => .ok (R.ids w.created) { w with created := w.created + 1 }
  | _, .pinPage id _ skipLoad, w =>
    if w.pins.any fun p => p.1 == id then .raise .deadlock w
    else if R.limit.any (· ≤ w.pins.length) then .raise .bufferFull w
    else if (w.mem id).isSome == skipLoad || !w.isCreated R id then .raise .notCreated w
    else .ok () { w with pins := (id, w.mem id) :: w.pins, recent := [] }
  | _, .unpinPage id dirty, w =>
    match w.pins.find? fun p => p.1 == id with
    | none => .raise .notReferenced w
    | some p =>
      .ok () { w with
        pins := w.pins.eraseP fun p => p.1 == id
        recent := id :: w.recent
        kept := w.kept ∧ (w.mem id).isSome ∧ (dirty = true ∨ w.mem id = p.2) }
  | _, .read id, w =>
    match w.mem id with
    | some d => if w.referenced id then .ok d w else .raise .notReferenced w
    | none => .raise .notCreated w
  | _, .peek id f, w =>
    match w.mem id with
    | some d => if w.referenced id then .ok (f d) w else .raise .notReferenced w
    | none => .raise .notCreated w
  | _, .write id d, w =>
    if w.pins.any fun p => p.1 == id then
      .ok () { w with mem := Function.update w.mem id (some d) }
    else .raise .notReferenced w
  | _, .header f, w => .ok w.header { w with header := f w.header }
  | _, .check b, w => if R.asserts && !b then .raise .assertFailed w else .ok () w
  | _, .raise e, w => .raise e w

end PageWorld

end BEpsilon
