import BEpsilon.Lib.Bytes
import BEpsilon.Buffer.PageBuffer

/-!
# BEpsilon.Buffer.Optimal — the page buffer that keeps all pages in memory

`OptimalPageBuffer.h`, the variant of the page buffer with one slot for each page: a page id is an index of
the array of pages, and only `flush` and the constructor touch the file.  What the array looks like as bytes
is taken as a `PageLayout`: `sizeof(Page)` bytes for each page, its data first.  The constructor looks for a
regular file in the place of the directory, so it never finds the pages of an earlier buffer:
`reopened_iff` says what is left of them.
-/

namespace BEpsilon.Buffer.Optimal

/-- `std::array<unsigned char, B>` -/
abbrev Data (B : ℕ) : Type := { l : List UInt8 // l.length = B }

def Data.zero (B : ℕ) : Data B := ⟨List.replicate B 0, List.length_replicate⟩

/-- How pages and the header are stored as bytes. -/
structure PageLayout (B : ℕ) where
  /-- `sizeof(Page)` -/
  pageSize : ℕ
  pageBytes : Page (Data B) → List UInt8
  length_pageBytes : ∀ page, (pageBytes page).length = pageSize
  data_first : ∀ page, (pageBytes page).take B = page.data.val
  /-- the page that `sizeof(Page)` bytes are read as -/
  pageOf : List UInt8 → Page (Data B)
  pageOf_data : ∀ l, l.length = pageSize → (pageOf l).data.val = l.take B
  /-- `sizeof(Header)` -/
  headerSize : ℕ
  headerBytes : ℕ → List UInt8
  length_headerBytes : ∀ idCounter, (headerBytes idCounter).length = headerSize
  /-- `static_assert(sizeof(Header) <= B)` -/
  header_le : headerSize ≤ B
  /-- what stands in memory behind the array of pages -/
  behind : ℕ → UInt8

/-! ### The directory -/

/-- What a path leads to. -/
inductive FsNode : Type
  | absent
  | regularFile (f : ByteFile)
  | directory

/-- The directory of a buffer and its file `path + "/pages"`, which exists in a directory only. -/
structure FileSystem where
  path : FsNode
  filePath : FsNode
  parent : filePath ≠ .absent → path = .directory

def FsNode.exists : FsNode → Bool
  | .absent => false
  | _ => true

def FsNode.isRegularFile : FsNode → Bool
  | .regularFile _ => true
  | _ => false

inductive OptimalErr : Type
  | invalidFileSize
  | invalidFile
  /-- `create_directories` on something else than a directory -/
  | notADirectory
  | couldNotCreate
  | fullBuffer
  | invalidId
  | blocked

/-! ### The buffer -/

structure OptimalBuffer (B : ℕ) where
  idCounter : ℕ := 0
  /-- the slots below N -/
  pages : ℕ → Page (Data B) := fun _ => { data := .zero B }

namespace OptimalBuffer

variable {B : ℕ} (L : PageLayout B) (N : ℕ)

/-- The array of pages as bytes. -/
def memory (b : OptimalBuffer B) : List UInt8 := (List.range N).flatMap fun i => L.pageBytes (b.pages i)

/-- `pread(fd, pages.data(), ...)`: the array with its first bytes replaced. -/
def readInto (b : OptimalBuffer B) (raw : List UInt8) : OptimalBuffer B :=
  let bytes := raw ++ (b.memory L N).drop raw.length
  { b with pages := fun i => L.pageOf ((bytes.drop (L.pageSize * i)).take L.pageSize) }

/-- The constructor. -/
def construct (fs : FileSystem) : Except OptimalErr (OptimalBuffer B × FileSystem) :=
  if fs.filePath.exists && fs.path.isRegularFile then
    match fs.filePath with
    | .regularFile f =>
      if f.size = 0 ∨ f.size ≠ B + B * N then .error .invalidFileSize
      else
        let raw := f.pread (B * N) 0
        if raw.length ≠ B * N then .error .invalidFile
        else .ok (({} : OptimalBuffer B).readInto L N raw, fs)
    | _ => .error .invalidFileSize
  else
    match fs.path with
    | .regularFile _ => .error .notADirectory
    | _ =>
      match fs.filePath with
      | .directory => .error .couldNotCreate
      | .absent => .ok ({}, ⟨.directory, .regularFile (ByteFile.empty.ftruncate (B + B * N)), fun _ => rfl⟩)
      | .regularFile f => .ok ({}, ⟨.directory, .regularFile (f.ftruncate (B + B * N)), fun _ => rfl⟩)

def createPage (b : OptimalBuffer B) : Except OptimalErr PageId × OptimalBuffer B :=
  let id := b.idCounter + 1
  let b := { b with idCounter := id }
  if N ≤ id then (.error .fullBuffer, b)
  else (.ok id, { b with pages := Function.update b.pages id { b.pages id with id := id } })

/-- `skipLoad` is ignored. -/
def pinPage (b : OptimalBuffer B) (id : PageId) (mode : LatchMode (Data B)) :
    Except OptimalErr (OptimalBuffer B) :=
  if N ≤ id then .error .invalidId
  else
    match (b.pages id).mutex.lock (mode.exclusive (b.pages id).data) with
    | none => .error .blocked
    | some l => .ok { b with pages := Function.update b.pages id { b.pages id with mutex := l } }

/-- `mutex.unlock()`: right for a page that is latched exclusively. -/
def unpinPage (b : OptimalBuffer B) (id : PageId) : OptimalBuffer B :=
  { b with pages := Function.update b.pages id { b.pages id with mutex := (b.pages id).mutex.unlock } }

/-- The user of a page writes to its data. -/
def write (b : OptimalBuffer B) (id : PageId) (data : Data B) : OptimalBuffer B :=
  { b with pages := Function.update b.pages id { b.pages id with data := data } }

/-- The header goes to the beginning of the file, and so do `B` bytes for each page from the array. -/
def flush (b : OptimalBuffer B) (fs : FileSystem) : Except OptimalErr FileSystem :=
  match fs.filePath with
  | .regularFile f =>
    let memory := b.memory L N
    let raw := (List.range (B * b.idCounter)).map fun o => memory.getD o (L.behind o)
    .ok ⟨.directory, .regularFile ((f.pwrite (L.headerBytes b.idCounter) 0).pwrite raw 0), fun _ => rfl⟩
  | _ => .error .invalidFile

end OptimalBuffer

/-! ### Calls on a buffer -/

/-- A buffer and the pages that its user created. -/
structure Session (B : ℕ) where
  buf : OptimalBuffer B := {}
  created : List PageId := []

namespace Session

open OptimalBuffer

variable {B : ℕ} {N : ℕ}

/-- The calls of one thread, and the writes to a page that it has latched exclusively. -/
inductive Step (N : ℕ) : Session B → Session B → Prop
  | createPage {s : Session B} {id : PageId} {b' : OptimalBuffer B} (h : s.buf.createPage N = (.ok id, b')) :
      Step N s { buf := b', created := id :: s.created }
  | fullBuffer {s : Session B} {e : OptimalErr} {b' : OptimalBuffer B}
      (h : s.buf.createPage N = (.error e, b')) : Step N s { s with buf := b' }
  | pinPage {s : Session B} {id : PageId} {mode : LatchMode (Data B)} {b' : OptimalBuffer B}
      (h : s.buf.pinPage N id mode = .ok b') : Step N s { s with buf := b' }
  | write {s : Session B} {id : PageId} {data : Data B} (h : (s.buf.pages id).mutex.exclusive = true) :
      Step N s { s with buf := s.buf.write id data }
  | unpinPage {s : Session B} {id : PageId} (h : (s.buf.pages id).mutex.exclusive = true) :
      Step N s { s with buf := s.buf.unpinPage id }

/-- What any calls lead to. -/
inductive Reach (N : ℕ) (s₀ : Session B) : Session B → Prop
  | refl : Reach N s₀ s₀
  | step {s s' : Session B} (h : Reach N s₀ s) (hs : Step N s s') : Reach N s₀ s'

/-- Every created page has the data in the buffer `b'` that it has in the session. -/
def KeepsData (N : ℕ) (s : Session B) (b' : OptimalBuffer B) : Prop :=
  ∀ id ∈ s.created, ∀ mode, ∃ b'', b'.pinPage N id mode = .ok b'' ∧ (b''.pages id).data = (s.buf.pages id).data

/-- No call of `createPage` on the buffer `b'` returns the id of a page of the session. -/
def KeepsIds (N : ℕ) (s : Session B) (b' : OptimalBuffer B) : Prop :=
  ∀ s', Reach N { buf := b' } s' → ∀ id ∈ s'.created, id ∉ s.created

/-- The created pages are the first ones. -/
structure Ok (N : ℕ) (s : Session B) : Prop where
  lt : ∀ id ∈ s.created, 0 < id ∧ id < N
  first : s.created ≠ [] → 1 ∈ s.created
  counted : s.created = [] → s.buf.idCounter = 0 ∨ N ≤ 1

variable {s s' : Session B} {b' : OptimalBuffer B}

/-- Only `createPage` counts. -/
theorem Ok.same (hok : Ok N s) (hcounter : b'.idCounter = s.buf.idCounter) : Ok N { s with buf := b' } := by
  refine ⟨hok.lt, hok.first, ?_⟩
  intro hnone
  rw [hcounter]
  exact hok.counted hnone

theorem Ok.step (hok : Ok N s) (hs : Step N s s') : Ok N s' := by
  cases hs with
  | @createPage id b' h =>
    unfold OptimalBuffer.createPage at h
    dsimp only at h
    split at h
    next => cases h
    next hlt =>
      obtain ⟨hid, rfl⟩ := Prod.mk.inj h
      obtain rfl := Except.ok.inj hid
      refine ⟨?_, ?_, fun hnone => by cases hnone⟩
      · intro id hid
        rcases List.mem_cons.mp hid with rfl | hid
        · exact ⟨Nat.succ_pos _, not_le.mp hlt⟩
        · exact hok.lt id hid
      · intro _
        by_cases hnone : s.created = []
        · -- the first id is one
          have hzero : s.buf.idCounter = 0 := (hok.counted hnone).resolve_right (by omega)
          rw [hzero]
          exact List.mem_cons_self
        · exact List.mem_cons_of_mem _ (hok.first hnone)
  | @fullBuffer e b' h =>
    unfold OptimalBuffer.createPage at h
    dsimp only at h
    split at h
    next hge =>
      obtain ⟨-, rfl⟩ := Prod.mk.inj h
      refine ⟨hok.lt, hok.first, ?_⟩
      intro hnone
      rcases hok.counted hnone with hzero | hN
      · right
        omega
      · exact .inr hN
    next => cases h
  | @pinPage id mode b' h =>
    unfold OptimalBuffer.pinPage at h
    split at h
    next => cases h
    next =>
      split at h
      next => cases h
      next =>
        obtain rfl := Except.ok.inj h
        exact hok.same rfl
  | write h => exact hok.same rfl
  | unpinPage h => exact hok.same rfl

theorem Reach.ok {s₀ : Session B} (hr : Reach N s₀ s) (hok : Ok N s₀) : Ok N s := by
  induction hr with
  | refl => exact hok
  | step _ hs ih => exact ih.step hs

theorem ok_new (N : ℕ) : Ok N ({} : Session B) :=
  ⟨fun _ hid => absurd hid List.not_mem_nil, fun hnone => absurd rfl hnone, fun _ => .inl rfl⟩

end Session

section Reopen

open OptimalBuffer Session

variable {B N : ℕ} {L : PageLayout B} {fs fs₁ : FileSystem} {b₀ : OptimalBuffer B} {s : Session B}

/-- The branch of the constructor that loads the pages is never taken: what has a file in it is a directory. -/
theorem construct_never_loads (fs : FileSystem) : (fs.filePath.exists && fs.path.isRegularFile) = false := by
  cases hfile : fs.filePath with
  | absent => rfl
  | regularFile f => rw [fs.parent (by rw [hfile]; exact fun h => by cases h)]; rfl
  | directory => rw [fs.parent (by rw [hfile]; exact fun h => by cases h)]; rfl

/-- A buffer starts empty, whatever is in its file. -/
theorem construct_ok (h : construct L N fs = .ok (b₀, fs₁)) :
    b₀ = {} ∧ ∃ f, fs₁.filePath = .regularFile f := by
  unfold construct at h
  rw [construct_never_loads, if_neg Bool.false_ne_true] at h
  split at h
  next => cases h
  next =>
    split at h
    next => cases h
    next =>
      obtain ⟨rfl, rfl⟩ := Prod.mk.inj (Except.ok.inj h)
      exact ⟨rfl, _, rfl⟩
    next f hf =>
      obtain ⟨rfl, rfl⟩ := Prod.mk.inj (Except.ok.inj h)
      exact ⟨rfl, _, rfl⟩

/-- A buffer on a directory with a file. -/
theorem construct_file {f : ByteFile} (hpath : fs.path = .directory) (hfile : fs.filePath = .regularFile f) :
    ∃ fs', construct L N fs = .ok ({}, fs') := by
  unfold construct
  rw [construct_never_loads, if_neg Bool.false_ne_true, hpath, hfile]
  exact ⟨_, rfl⟩

theorem flush_file {b : OptimalBuffer B} {f : ByteFile} (hfile : fs.filePath = .regularFile f) :
    ∃ fs' f', b.flush L N fs = .ok fs' ∧ fs'.path = .directory ∧ fs'.filePath = .regularFile f' := by
  unfold OptimalBuffer.flush
  rw [hfile]
  exact ⟨_, _, rfl, rfl, rfl⟩

/-- The data of a new buffer is zero. -/
theorem keepsData_new_iff (hok : Ok N s) :
    s.KeepsData N {} ↔ ∀ id ∈ s.created, (s.buf.pages id).data = .zero B := by
  have hpin : ∀ id, id < N → ∀ mode : LatchMode (Data B), ∃ b'', ({} : OptimalBuffer B).pinPage N id mode = .ok b'' ∧
      (b''.pages id).data = .zero B := by
    intro id hid mode
    unfold OptimalBuffer.pinPage
    rw [if_neg (not_le.mpr hid)]
    cases mode.exclusive (({} : OptimalBuffer B).pages id).data with
    | true => exact ⟨_, rfl, by simp⟩
    | false => exact ⟨_, rfl, by simp⟩
  constructor
  · intro h id hid
    obtain ⟨b'', hb, hdata⟩ := h id hid (.fixed true)
    obtain ⟨b₁, hb₁, hzero⟩ := hpin id (hok.lt id hid).2 (.fixed true)
    obtain rfl := Except.ok.inj (hb.symm.trans hb₁)
    rw [← hdata, hzero]
  · intro h id hid mode
    obtain ⟨b'', hb, hzero⟩ := hpin id (hok.lt id hid).2 mode
    exact ⟨b'', hb, by rw [hzero, h id hid]⟩

/-- The first page of a new buffer is page 1 again. -/
theorem not_keepsIds_new (hok : Ok N s) (hcreated : s.created ≠ []) : ¬ s.KeepsIds N {} := by
  intro hids
  have hone := hok.first hcreated
  have hN := (hok.lt 1 hone).2
  have hstep : Step N { buf := ({} : OptimalBuffer B) } { buf := _, created := [1] } :=
    @Step.createPage _ _ _ 1 _ (if_neg (not_le.mpr hN))
  exact hids _ (.step .refl hstep) 1 List.mem_cons_self hone

/-- A buffer that is constructed after a flush keeps data and ids exactly when no page was created, and the
data alone exactly when nothing but zeros was left in the created pages. -/
theorem reopened_iff (L : PageLayout B) (N : ℕ) (hopen : construct L N fs = .ok (b₀, fs₁))
    (hrun : Reach N { buf := b₀ } s) :
    ∃ fs₂, s.buf.flush L N fs₁ = .ok fs₂ ∧ ∃ b' fs₃, construct L N fs₂ = .ok (b', fs₃) ∧
      ((s.KeepsData N b' ∧ s.KeepsIds N b') ↔ s.created = []) ∧
      (s.KeepsData N b' ↔ ∀ id ∈ s.created, (s.buf.pages id).data = .zero B) := by
  obtain ⟨rfl, f, hf⟩ := construct_ok hopen
  have hok : Ok N s := hrun.ok (ok_new N)
  obtain ⟨fs₂, f', hflush, hpath, hfile⟩ := flush_file (b := s.buf) (L := L) (N := N) hf
  obtain ⟨fs₃, hreopen⟩ := construct_file (L := L) (N := N) hpath hfile
  refine ⟨fs₂, hflush, {}, fs₃, hreopen, ⟨?_, ?_⟩, keepsData_new_iff hok⟩
  · rintro ⟨-, hids⟩
    by_contra hcreated
    exact not_keepsIds_new hok hcreated hids
  · intro hnone
    refine ⟨?_, ?_⟩
    · intro id hid
      rw [hnone] at hid
      cases hid
    · intro s' _ id _ hid
      rw [hnone] at hid
      cases hid

/-- A page that is stored as its data and its id. -/
def PageLayout.basic (B : ℕ) (hB : 16 ≤ B) : PageLayout B where
  pageSize := B + 8
  pageBytes page := page.data.val ++ bytesOf 8 page.id
  length_pageBytes page := by rw [List.length_append, page.data.property, length_bytesOf]
  data_first page := by rw [List.take_left' page.data.property]
  pageOf l := if h : B ≤ l.length then { data := ⟨l.take B, List.length_take_of_le h⟩ } else { data := .zero B }
  pageOf_data l hl := by rw [dif_pos (by omega)]
  headerSize := 16
  headerBytes idCounter := bytesOf 16 idCounter
  length_headerBytes idCounter := length_bytesOf 16 idCounter
  header_le := hB
  behind _ := 0

/-- Three slots: two pages are created and left as they are, so that their zeros are kept, but their ids are not. -/
theorem reopened_iff_zeros : ∃ (s : Session 16) (b' : OptimalBuffer 16), Reach 3 {} s ∧ s.created = [2, 1] ∧
    s.KeepsData 3 b' ∧ ¬ s.KeepsIds 3 b' := by
  have h₁ : Reach 3 ({} : Session 16) _ := .step .refl (@Step.createPage _ _ _ 1 _ rfl)
  have h₂ := h₁.step (@Step.createPage _ _ _ 2 _ rfl)
  have h₃ := h₂.step (@Step.pinPage _ _ _ 2 (.fixed true) _ rfl)
  have h₄ := h₃.step (@Step.unpinPage _ _ _ 2 rfl)
  obtain ⟨fs₁, hfs₁⟩ : ∃ fs₁, construct (.basic 16 le_rfl) 3 ⟨.absent, .absent, fun h => absurd rfl h⟩ =
      .ok ({}, fs₁) := ⟨_, rfl⟩
  obtain ⟨-, -, b', -, -, hboth, hdata⟩ := reopened_iff (.basic 16 le_rfl) 3 hfs₁ h₄
  have hkept : Session.KeepsData 3 _ b' := hdata.mpr (by decide)
  exact ⟨_, b', h₄, rfl, hkept, fun hids => absurd (hboth.mp ⟨hkept, hids⟩) (List.cons_ne_nil _ _)⟩

/-- Sixteen bytes. -/
def sevens : Data 16 := ⟨List.replicate 16 7, rfl⟩

/-- Two slots: page 1 is created, written and flushed; a buffer that is constructed then has zeros in it and
creates page 1 again. -/
theorem reopened_lost : ∃ (fs₁ fs₂ fs₃ : FileSystem) (s : Session 16) (b' : OptimalBuffer 16),
    construct (.basic 16 le_rfl) 2 ⟨.absent, .absent, fun h => absurd rfl h⟩ = .ok ({}, fs₁) ∧
    Reach 2 {} s ∧ s.created = [1] ∧ (s.buf.pages 1).data = sevens ∧
    s.buf.flush (.basic 16 le_rfl) 2 fs₁ = .ok fs₂ ∧ construct (.basic 16 le_rfl) 2 fs₂ = .ok (b', fs₃) ∧
    ¬ s.KeepsData 2 b' ∧ ¬ s.KeepsIds 2 b' := by
  have h₁ : Reach 2 ({} : Session 16) _ := .step .refl (@Step.createPage _ _ _ 1 _ rfl)
  have h₂ := h₁.step (@Step.pinPage _ _ _ 1 (.fixed true) _ rfl)
  have h₃ := h₂.step (@Step.write _ _ _ 1 sevens rfl)
  have h₄ := h₃.step (@Step.unpinPage _ _ _ 1 rfl)
  obtain ⟨s, hs, hcreated, hdata⟩ : ∃ s : Session 16, Reach 2 {} s ∧ s.created = [1] ∧
      (s.buf.pages 1).data = sevens := ⟨_, h₄, rfl, rfl⟩
  have hok : Ok 2 s := hs.ok (ok_new 2)
  obtain ⟨fs₁, hfs₁⟩ : ∃ fs₁, construct (.basic 16 le_rfl) 2 ⟨.absent, .absent, fun h => absurd rfl h⟩ =
      .ok ({}, fs₁) := ⟨_, rfl⟩
  obtain ⟨-, f, hf⟩ := construct_ok hfs₁
  obtain ⟨fs₂, f', hflush, hpath, hfile⟩ := flush_file (b := s.buf) (L := .basic 16 le_rfl) (N := 2) hf
  obtain ⟨fs₃, hfs₃⟩ := construct_file (L := .basic 16 le_rfl) (N := 2) hpath hfile
  refine ⟨fs₁, fs₂, fs₃, s, {}, hfs₁, hs, hcreated, hdata, hflush, hfs₃, ?_, ?_⟩
  · intro hkeeps
    have hzero := (keepsData_new_iff hok).mp hkeeps 1 (by rw [hcreated]; exact List.mem_cons_self)
    rw [hdata] at hzero
    exact absurd hzero (by decide)
  · exact not_keepsIds_new hok (by rw [hcreated]; exact List.cons_ne_nil _ _)

end Reopen

end BEpsilon.Buffer.Optimal
