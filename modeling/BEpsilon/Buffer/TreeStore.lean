import BEpsilon.Buffer.Caching
import Mathlib.Data.Finset.Image

/-!
# BEpsilon.Buffer.TreeStore — a tree over the page buffer

`PageCmd.onBuffer` is what a command of a tree operation does to the page buffer; the references that
`pinPage` returned are the variables `ref` of the store.  `Mirrors` relates a store to an ideal store:
what is cached or backed is what the ideal store has in memory.  Every run on the ideal store that
releases changed pages dirty is a run on the page buffer, as long as there is a slot for each page
that it pins.
-/

namespace BEpsilon.Buffer

variable {D H : Type}

/-- Accesses to the variables of the tree: its header and the references it holds. -/
inductive VarCmd (H : Type) : Type → Type
  | header (f : H → H) : VarCmd H H
  | getRef (id : PageId) : VarCmd H ℕ
  | setRef (id : PageId) (index : ℕ) : VarCmd H Unit
  | raise (e : PageErr) : VarCmd H Empty

/-- Commands of a tree over the page buffer. -/
abbrev StoreCmd (D H β : Type) : Type := BufCmd D β ⊕ VarCmd H β

/-- What stops a run over the page buffer. -/
inductive StoreErr : Type
  | buf (e : BufErr)
  | tree (e : PageErr)
  deriving DecidableEq

/-- The page buffer with the variables of the tree. -/
structure Store (D H : Type) where
  buf : PageBuffer D
  ref : PageId → ℕ
  header : H

/-- A store over a page buffer. -/
def Store.open (header : H) (buf : PageBuffer D) : Store D H := ⟨buf, fun _ => 0, header⟩

def Store.handler (B : BufRules) : Handler (StoreCmd D H) StoreErr (Store D H)
  | _, .inl c, v =>
    match PageBuffer.handler B _ c v.buf with
    | .ok a b => .ok a { v with buf := b }
    | .raise e b => .raise (.buf e) { v with buf := b }
  | _, .inr (.header f), v => .ok v.header { v with header := f v.header }
  | _, .inr (.getRef id), v => .ok (v.ref id) v
  | _, .inr (.setRef id index), v => .ok () { v with ref := Function.update v.ref id index }
  | _, .inr (.raise e), v => .raise (.tree e) v

/-- Programs over the page buffer and the variables of the tree. -/
abbrev StoreProg (D H : Type) : Type → Type 1 := Prog (StoreCmd D H)

namespace StoreProg

def buf {α : Type} (p : BufProg D α) : StoreProg D H α := p.lift fun _ c => .inl c

def getRef (id : PageId) : StoreProg D H ℕ := .cmd (.inr (.getRef id))

def setRef (id : PageId) (index : ℕ) : StoreProg D H Unit := .cmd (.inr (.setRef id index))

end StoreProg

/-- What a command of a tree does to the page buffer. -/
def PageCmd.onBuffer : (β : Type) → PageCmd D H β → StoreProg D H β
  | _, .createPage => .buf (.cmd .createBlock)
  | _, .pinPage id mode skipLoad => do
    let index ← StoreProg.buf (pinPage id mode skipLoad)
    .setRef id index
  | _, .unpinPage id dirty => do
    let index ← StoreProg.getRef id
    .buf (unpinPage index dirty)
  | _, .read id => do
    let index ← StoreProg.getRef id
    .buf (.cmd (.readPage index))
  | _, .peek id f => do
    let index ← StoreProg.getRef id
    let d ← StoreProg.buf (.cmd (.readPage index))
    return f d
  | _, .write id d => do
    let index ← StoreProg.getRef id
    .buf (.cmd (.writePage index d))
  | _, .header f => .cmd (.inr (.header f))
  | _, .check b => .buf (.cmd (.check b))
  | _, .raise e => .cmd (.inr (.raise e))

/-- A tree operation over the page buffer. -/
def onBuffer {α : Type} (p : PageProg D H α) : StoreProg D H α := p.expand PageCmd.onBuffer

/-! ### The ideal store in the page buffer -/

/-- The page buffer holds what the ideal store has in memory. -/
structure Mirrors (B : BufRules) (w : PageWorld D H) (v : Store D H) : Prop where
  inv : Inv B v.buf
  header : v.header = w.header
  created : v.buf.created = w.created
  nodup : (w.pins.map Prod.fst).Nodup
  pinned : ∀ p ∈ w.pins, v.buf.pageTable.lookup p.1 = some (v.ref p.1) ∧
    (v.buf.pages (v.ref p.1)).pins = 1
  unpinned : ∀ id, (∀ p ∈ w.pins, p.1 ≠ id) → Unpinned v.buf id
  recent : ∀ id ∈ w.recent, v.buf.pageTable.lookup id = some (v.ref id)
  cached : ∀ id d, w.mem id = some d → Cached v.buf id d
  backed : ∀ id d, w.mem id = some d → (∀ p ∈ w.pins, p.1 ≠ id) → Backed v.buf id d
  snapshot : ∀ id d, (id, some d) ∈ w.pins → Backed v.buf id d

theorem mem_eraseP_fst {α : Type} {l : List (PageId × α)} (hl : (l.map Prod.fst).Nodup) {id : PageId}
    {x : PageId × α} : x ∈ l.eraseP (fun p => p.1 == id) ↔ x ∈ l ∧ x.1 ≠ id := by
  induction l with
  | nil => simp
  | cons a l ih =>
    obtain ⟨ha, hl⟩ := List.nodup_cons.mp hl
    by_cases e : a.1 = id
    · subst e
      have hne : x ∈ l → x.1 ≠ a.1 := fun hx e => ha (List.mem_map.mpr ⟨x, hx, e⟩)
      rw [List.eraseP_cons_of_pos (by simp), List.mem_cons]
      refine ⟨fun hx => ⟨.inr hx, hne hx⟩, ?_⟩
      rintro ⟨rfl | hx, hn⟩
      · exact absurd rfl hn
      · exact hx
    · rw [List.eraseP_cons_of_neg (by simpa using e), List.mem_cons, List.mem_cons, ih hl]
      refine ⟨?_, ?_⟩
      · rintro (rfl | hx)
        · exact ⟨.inl rfl, e⟩
        · exact ⟨.inr hx.1, hx.2⟩
      · rintro ⟨rfl | hx, hn⟩
        · exact .inl rfl
        · exact .inr ⟨hx, hn⟩

section Mirrors

variable {B : BufRules} {w : PageWorld D H} {v : Store D H} {id : PageId}

/-- Fewer pages are pinned than there are slots: some slot has no pin. -/
theorem Mirrors.room (hM : Mirrors B w v) (hlt : w.pins.length < B.N) :
    ∃ s < B.N, (v.buf.pages s).pins = 0 := by
  by_contra hno
  have hall : ∀ s < B.N, (v.buf.pages s).pins ≠ 0 := fun s hs hp => hno ⟨s, hs, hp⟩
  -- every slot is the reference of a pinned page
  have hsub : Finset.range B.N ⊆ (w.pins.map fun p => v.ref p.1).toFinset := by
    intro s hs
    have hs' := Finset.mem_range.mp hs
    obtain ⟨key, hkey⟩ : ∃ key, v.buf.pageTable.lookup key = some s := by
      by_contra hk
      exact hall s hs' (hM.inv.free_pins s ((hM.inv.free s).mpr ⟨hs', fun i h => hk ⟨i, h⟩⟩))
    obtain ⟨p, hp, rfl⟩ : ∃ p ∈ w.pins, p.1 = key := by
      by_contra hk
      exact hall s hs' (hM.unpinned key (fun p hp e => hk ⟨p, hp, e⟩) s hkey)
    rw [(hM.pinned p hp).1] at hkey
    obtain rfl := Option.some.inj hkey
    exact List.mem_toFinset.mpr (List.mem_map.mpr ⟨p, hp, rfl⟩)
  have hcard := Finset.card_le_card hsub
  have hlen := List.toFinset_card_le (w.pins.map fun p => v.ref p.1)
  simp only [Finset.card_range, List.length_map] at hcard hlen
  omega

/-- A referenced page is in the slot of its reference, with the data of the ideal store. -/
theorem Mirrors.ref_data (hM : Mirrors B w v) {d : D} (hd : w.mem id = some d)
    (hr : w.referenced id = true) : (v.buf.pages (v.ref id)).data = d := by
  have hlook : v.buf.pageTable.lookup id = some (v.ref id) := by
    rcases (by simpa [PageWorld.referenced] using hr) with ⟨s, hs⟩ | hs
    · exact (hM.pinned _ hs).1
    · exact hM.recent id hs
  exact hM.cached id d hd _ hlook

theorem Mirrors.not_unpinned (hM : Mirrors B w v) {p : PageId × Option D} (hp : p ∈ w.pins) :
    ¬ Unpinned v.buf p.1 := by
  intro hun
  obtain ⟨hlook, hpins⟩ := hM.pinned p hp
  rw [hun _ hlook] at hpins
  exact absurd hpins (by decide)

/-- `pinPage` -/
theorem Mirrors.pin {b' : PageBuffer D} {mode : LatchMode D} {skipLoad : Bool} {s : ℕ}
    (hM : Mirrors B w v) (hP : PinPost B v.buf b' id mode skipLoad s)
    (hpin : ∀ p ∈ w.pins, p.1 ≠ id) (hskip : (w.mem id).isSome = !skipLoad) :
    Mirrors B { w with pins := (id, w.mem id) :: w.pins, recent := [] }
      { v with buf := b', ref := Function.update v.ref id s } := by
  have hself : ∀ d, w.mem id = some d → Backed b' id d ∧ Cached b' id d := by
    intro d hd
    rw [hd] at hskip
    exact hP.self (.inl (by simpa using hskip.symm)) d (hM.backed id d hd hpin) (hM.cached id d hd)
  have hs : ∀ p ∈ w.pins, v.ref p.1 ≠ s := by
    intro p hp e
    have h₁ := (hM.pinned p hp).2
    rw [e, hP.was_free] at h₁
    exact absurd h₁ (by decide)
  refine ⟨hP.inv, hM.header, hP.created.trans hM.created, ?_, fun p hp => ?_, fun id' hid' => ?_,
    fun id' h => by simp at h, fun id' d hd => ?_, fun id' d hd hid' => ?_, fun id' d hd => ?_⟩
  · refine List.nodup_cons.mpr ⟨fun h => ?_, hM.nodup⟩
    obtain ⟨p, hp, e⟩ := List.mem_map.mp h
    exact hpin p hp e
  · rcases List.mem_cons.mp hp with rfl | hp
    · simpa using ⟨hP.slot, hP.pins⟩
    · obtain ⟨hlook, hpins⟩ := hM.pinned p hp
      simp only [Function.update_of_ne (hpin p hp), hP.pages _ (hs p hp)]
      exact ⟨hP.pinned _ _ hlook (by omega), hpins⟩
  · intro s' hs'
    have hne : id' ≠ id := fun e => hid' _ List.mem_cons_self e.symm
    have hne' : s' ≠ s := fun e => hne (hP.inv.inj _ _ s' hs' (e ▸ hP.slot))
    show (b'.pages s').pins = 0
    rw [hP.pages s' hne']
    exact hM.unpinned id' (fun p hp => hid' p (List.mem_cons_of_mem _ hp)) s' (hP.kept id' hne s' hs')
  · by_cases hne : id' = id
    · subst hne
      exact (hself d hd).2
    · by_cases hp : ∃ p ∈ w.pins, p.1 = id'
      · obtain ⟨p, hp, rfl⟩ := hp
        exact (hP.others p.1 hne _ d ⟨fun _ => rfl, fun _ _ _ => rfl⟩ (hM.cached _ d hd)
          fun h => absurd h (hM.not_unpinned hp)).2
      · exact (hP.others id' hne d d (hM.backed id' d hd fun p h e => hp ⟨p, h, e⟩)
          (hM.cached id' d hd) fun _ => rfl).2
  · have hne : id' ≠ id := fun e => hid' _ List.mem_cons_self e.symm
    exact (hP.others id' hne d d (hM.backed id' d hd fun p hp => hid' p (List.mem_cons_of_mem _ hp))
      (hM.cached id' d hd) fun _ => rfl).1
  · rcases List.mem_cons.mp hd with e | hp
    · obtain ⟨rfl, hd⟩ := Prod.mk.inj e
      exact (hself d hd.symm).1
    · refine (hP.others id' (hpin _ hp) d (v.buf.pages (v.ref id')).data (hM.snapshot id' d hp) ?_
        fun h => absurd h (hM.not_unpinned hp)).1
      intro s' hs'
      rw [(hM.pinned _ hp).1] at hs'
      rw [Option.some.inj hs']

/-- `unpinPage` of a page that is released dirty or unchanged. -/
theorem Mirrors.unpin {d₀ : Option D} {dirty : Bool} {kept : Prop} (hM : Mirrors B w v)
    (hp : (id, d₀) ∈ w.pins) (hmem : (w.mem id).isSome) (hd : dirty = true ∨ w.mem id = d₀) :
    Mirrors B
      { w with pins := w.pins.eraseP fun p => p.1 == id, recent := id :: w.recent, kept := kept }
      { v with buf := v.buf.modifyPage (v.ref id) fun page => page.unpinned dirty } := by
  obtain ⟨hlook, hpins⟩ := hM.pinned _ hp
  simp only at hlook hpins
  have hne : ∀ id' s', id' ≠ id → v.buf.pageTable.lookup id' = some s' → s' ≠ v.ref id := by
    rintro id' s' e hs' rfl
    exact e (hM.inv.inj _ _ _ hs' hlook)
  have hother : ∀ id' d, id' ≠ id → Backed v.buf id' d →
      Backed (v.buf.modifyPage (v.ref id) fun page => page.unpinned dirty) id' d := by
    refine fun id' d e hB => ⟨hB.1, fun s' hs' hclean => hB.2 s' hs' ?_⟩
    rwa [PageBuffer.modifyPage_pages_ne (hne id' s' e hs')] at hclean
  refine ⟨hM.inv.unpinned hpins.ge dirty, hM.header, hM.created, ?_, fun p hp' => ?_, fun id' hid' => ?_,
    fun id' hr => ?_, fun id' d hd' => ?_, fun id' d hd' hid' => ?_, fun id' d hd' => ?_⟩
  · exact (List.Sublist.map _ List.eraseP_sublist).nodup hM.nodup
  · obtain ⟨hp', e⟩ := (mem_eraseP_fst hM.nodup).mp hp'
    obtain ⟨hlook', hpins'⟩ := hM.pinned p hp'
    refine ⟨hlook', ?_⟩
    rw [PageBuffer.modifyPage_pages_ne (hne _ _ e hlook')]
    exact hpins'
  · intro s' hs'
    by_cases e : id' = id
    · subst e
      obtain rfl := Option.some.inj (hlook.symm.trans hs')
      simp [Page.unpinned, hpins]
    · show ((v.buf.modifyPage (v.ref id) fun page => page.unpinned dirty).pages s').pins = 0
      rw [PageBuffer.modifyPage_pages_ne (hne id' s' e hs')]
      refine hM.unpinned id' (fun p hp' e' => ?_) s' hs'
      exact hid' p ((mem_eraseP_fst hM.nodup).mpr ⟨hp', fun e'' => e (e'.symm.trans e'')⟩) e'
  · rcases List.mem_cons.mp hr with rfl | hr
    · exact hlook
    · exact hM.recent id' hr
  · intro s' hs'
    have h := hM.cached id' d hd' s' hs'
    by_cases e : s' = v.ref id
    · subst e
      simpa [Page.unpinned] using h
    · show ((v.buf.modifyPage (v.ref id) fun page => page.unpinned dirty).pages s').data = d
      rw [PageBuffer.modifyPage_pages_ne e, h]
  · by_cases e : id' = id
    · subst e
      refine ⟨fun h => ?_, fun s' hs' hclean => ?_⟩
      · exact absurd (h.symm.trans hlook) (by simp)
      · obtain rfl := Option.some.inj (hlook.symm.trans hs')
        simp only [PageBuffer.modifyPage_pages_self, Page.unpinned, Bool.or_eq_false_iff] at hclean
        have hs₀ : w.mem id' = d₀ := hd.resolve_left (by simp [hclean.1])
        exact (hM.snapshot id' d (by rw [← hd', hs₀]; exact hp)).2 _ hlook hclean.2
    · refine hother id' d e (hM.backed id' d hd' fun p hp' e' => ?_)
      exact hid' p ((mem_eraseP_fst hM.nodup).mpr ⟨hp', fun e'' => e (e'.symm.trans e'')⟩) e'
  · obtain ⟨hp', e⟩ := (mem_eraseP_fst hM.nodup).mp hd'
    exact hother id' d e (hM.snapshot id' d hp')

/-- A write to a pinned page. -/
theorem Mirrors.write {d : D} (hM : Mirrors B w v) (hp : ∃ p ∈ w.pins, p.1 = id) :
    Mirrors B { w with mem := Function.update w.mem id (some d) }
      { v with buf := v.buf.modifyPage (v.ref id) fun page => { page with data := d } } := by
  obtain ⟨p, hp, rfl⟩ := hp
  obtain ⟨hlook, hpins⟩ := hM.pinned p hp
  have hpages : ∀ s', ((v.buf.modifyPage (v.ref p.1) fun page => { page with data := d }).pages s').pins =
      (v.buf.pages s').pins ∧ ((v.buf.modifyPage (v.ref p.1) fun page =>
        { page with data := d }).pages s').dirty = (v.buf.pages s').dirty := by
    intro s'
    by_cases e : s' = v.ref p.1
    · subst e; simp
    · rw [PageBuffer.modifyPage_pages_ne e]; exact ⟨rfl, rfl⟩
  have hbacked : ∀ id' d', Backed v.buf id' d' → Backed (v.buf.modifyPage (v.ref p.1) fun page =>
      { page with data := d }) id' d' :=
    fun id' d' hB => ⟨hB.1, fun s' hs' hclean => hB.2 s' hs' (by rwa [(hpages s').2] at hclean)⟩
  refine ⟨hM.inv.modifyPage (f := fun page => { page with data := d }) rfl (hM.inv.latch _) (hM.inv.free_pins _),
    hM.header,
    hM.created, hM.nodup, fun q hq => ⟨(hM.pinned q hq).1, ?_⟩, fun id' hid' s' hs' => ?_, hM.recent,
    fun id' d' hd' s' hs' => ?_,
    fun id' d' hd' hid' => ?_, fun id' d' hd' => hbacked id' d' (hM.snapshot id' d' hd')⟩
  · rw [(hpages _).1]
    exact (hM.pinned q hq).2
  · show ((v.buf.modifyPage (v.ref p.1) fun page => { page with data := d }).pages s').pins = 0
    rw [(hpages s').1]
    exact hM.unpinned id' hid' s' hs'
  · by_cases e : id' = p.1
    · subst e
      obtain rfl := Option.some.inj (hlook.symm.trans hs')
      simpa using hd'
    · simp only [Function.update_of_ne e] at hd'
      show ((v.buf.modifyPage (v.ref p.1) fun page => { page with data := d }).pages s').data = d'
      rw [PageBuffer.modifyPage_pages_ne]
      · exact hM.cached id' d' hd' s' hs'
      · rintro rfl
        exact e (hM.inv.inj _ _ _ hs' hlook)
  · simp only [Function.update_of_ne fun e => hid' p hp (Eq.symm e)] at hd'
    exact hbacked id' d' (hM.backed id' d' hd' hid')

end Mirrors

/-! ### Every run on the ideal store is a run on the page buffer -/

section Run

variable {B : BufRules} {R : PageRules} {w : PageWorld D H} {v : Store D H} {id : PageId} {α : Type}
  {T : StoreErr → Prop}

theorem runs_buf {p : BufProg D α} {Q : α → PageBuffer D → Prop}
    (hp : Runs (PageBuffer.handler B) p v.buf Q) :
    Runs (Store.handler B) (StoreProg.buf p) v fun a v' => ∃ b, v' = { v with buf := b } ∧ Q a b := by
  have hok : ∀ (β : Type) (c : BufCmd D β) (b : PageBuffer D) (a : β) (b' : PageBuffer D),
      PageBuffer.handler B β c b = .ok a b' →
        Store.handler B β (.inl c) { v with buf := b } = .ok a ({ v with buf := b' } : Store D H) :=
    fun β c b a b' hc => by simp only [Store.handler, hc]
  exact runs_lift hok hp

/-- The full buffer stops the run. -/
theorem raises_buf {p : BufProg D α} {e : BufErr} {Q : PageBuffer D → Prop}
    (hp : Raises (PageBuffer.handler B) p v.buf e Q) :
    Raises (Store.handler B) (StoreProg.buf p) v (.buf e) fun v' => ∃ b, v' = { v with buf := b } ∧ Q b := by
  have hok : ∀ (β : Type) (c : BufCmd D β) (b : PageBuffer D) (a : β) (b' : PageBuffer D),
      PageBuffer.handler B β c b = .ok a b' →
        Store.handler B β (.inl c) { v with buf := b } = .ok a ({ v with buf := b' } : Store D H) :=
    fun β c b a b' hc => by simp only [Store.handler, hc]
  have hraise : ∀ (β : Type) (c : BufCmd D β) (b : PageBuffer D) (e : BufErr) (b' : PageBuffer D),
      PageBuffer.handler B β c b = .raise e b' →
        Store.handler B β (.inl c) { v with buf := b } = .raise (.buf e) ({ v with buf := b' } : Store D H) :=
    fun β c b e b' hc => by simp only [Store.handler, hc]
  exact raises_lift hok hraise hp

/-- How a buffer has to be set up for the runs on an ideal store. -/
structure Serves (B : BufRules) (R : PageRules) (T : StoreErr → Prop) : Prop where
  ids : B.ids = R.ids
  asserts : B.asserts = true → R.asserts = true
  room : (∃ n ∈ R.limit, n ≤ B.N) ∨ T (.buf .bufferFull)

theorem ends_pinPage (hB : Serves B R T) (hM : Mirrors B w v) {mode : LatchMode D} {skipLoad : Bool}
    {w₁ : PageWorld D H} (hc : PageWorld.handler R _ (.pinPage id mode skipLoad) w = .ok () w₁) :
    Ends (Store.handler B) T (PageCmd.onBuffer _ (.pinPage id mode skipLoad)) v
      fun _ v₁ => Mirrors B w₁ v₁ := by
  simp only [PageWorld.handler] at hc
  split at hc
  · simp at hc
  next hpin =>
    split at hc
    · simp at hc
    next hlim =>
      split at hc
      · simp at hc
      next hskip =>
        obtain rfl := by simpa using hc
        have hpin' : ∀ p ∈ w.pins, p.1 ≠ id := fun p hp e =>
          hpin (List.any_eq_true.mpr ⟨p, hp, by simpa using e⟩)
        have hskip' : (w.mem id).isSome = !skipLoad := by
          cases h : (w.mem id).isSome <;> cases skipLoad <;> simp_all
        simp only [PageCmd.onBuffer, Prog.bind_def]
        by_cases hroom : v.buf.pageTable.lookup id ≠ none ∨ ∃ s < B.N, (v.buf.pages s).pins = 0
        · refine .inl (runs_bind ((runs_buf (pinPage_returns hM.inv (hM.unpinned id hpin')
            hroom)).mono ?_))
          rintro s _ ⟨b, rfl, hP⟩
          exact runs_call rfl (runs_ret (hM.pin hP hpin' hskip'))
        · obtain ⟨hid, hno⟩ := not_or.mp hroom
          rcases hB.room with ⟨n, hn, hle⟩ | hT
          · refine absurd (hM.room ?_) hno
            by_contra hge
            exact hlim (by rw [Option.mem_def.mp hn]; simpa using by omega)
          · have hfull : Raises (PageBuffer.handler B) (pinPage id mode skipLoad) v.buf
                .bufferFull fun b' => b' = v.buf.withTable (held false) :=
              pinPage_raises hM.inv (not_not.mp hid) fun s hs hp => hno ⟨s, hs, hp⟩
            obtain ⟨m, v', hm, -⟩ := raises_buf hfull
            exact .inr ⟨_, hT, Raises.bind ⟨m, v', hm, trivial⟩⟩

/-- Every command of a tree. -/
theorem ends_onBuffer (hB : Serves B R T) {β : Type} {c : PageCmd D H β} {b : β}
    {w₁ : PageWorld D H} (hM : Mirrors B w v) (hc : PageWorld.handler R β c w = .ok b w₁)
    (hkept : w₁.kept) :
    Ends (Store.handler B) T (PageCmd.onBuffer β c) v fun b' v₁ => b' = b ∧ Mirrors B w₁ v₁ := by
  cases c with
  | createPage =>
    simp only [PageWorld.handler, Outcome.ok.injEq] at hc
    obtain ⟨rfl, rfl⟩ := hc
    refine .inl (runs_call rfl (runs_ret ⟨by rw [hB.ids, hM.created], ?_⟩))
    exact ⟨hM.inv.createBlock, hM.header, congrArg (· + 1) hM.created, hM.nodup, hM.pinned,
      hM.unpinned, hM.recent, hM.cached, hM.backed, hM.snapshot⟩
  | pinPage id mode skipLoad => exact (ends_pinPage hB hM hc).imp (·.mono fun _ _ h => ⟨rfl, h⟩) fun h => h
  | unpinPage id dirty =>
    simp only [PageWorld.handler] at hc
    split at hc
    · simp at hc
    next p hfind =>
      simp only [Outcome.ok.injEq, true_and] at hc
      subst hc
      obtain ⟨hmem, hd⟩ := hkept.2
      have hp := List.mem_of_find?_eq_some hfind
      obtain rfl : p.1 = id := by simpa using List.find?_some hfind
      refine .inl (runs_call rfl ((runs_buf (unpinPage_returns ?_)).mono ?_))
      · exact (hM.pinned p hp).2.ge
      · rintro _ _ ⟨_, rfl, rfl⟩
        exact ⟨rfl, hM.unpin hp hmem hd⟩
  | read id =>
    simp only [PageWorld.handler] at hc
    split at hc
    next d hd =>
      split at hc
      next hr =>
        obtain ⟨rfl, rfl⟩ := by simpa using hc
        exact .inl (runs_call rfl (runs_call rfl (runs_ret ⟨hM.ref_data hd hr, hM⟩)))
      next => simp at hc
    next => simp at hc
  | peek id f =>
    simp only [PageWorld.handler] at hc
    split at hc
    next d hd =>
      split at hc
      next hr =>
        obtain ⟨rfl, rfl⟩ := by simpa using hc
        exact .inl (runs_call rfl (runs_call rfl (runs_ret ⟨congrArg f (hM.ref_data hd hr), hM⟩)))
      next => simp at hc
    next => simp at hc
  | write id d =>
    simp only [PageWorld.handler] at hc
    split at hc
    next hp =>
      obtain rfl := by simpa using hc
      refine .inl (runs_call rfl (runs_call rfl (runs_ret ⟨rfl, hM.write ?_⟩)))
      obtain ⟨p, hp, e⟩ := List.any_eq_true.mp hp
      exact ⟨p, hp, by simpa using e⟩
    next => simp at hc
  | header f =>
    obtain ⟨rfl, rfl⟩ := by simpa [PageWorld.handler] using hc
    refine .inl (runs_call rfl (runs_ret ⟨hM.header, ?_⟩))
    exact ⟨hM.inv, congrArg f hM.header, hM.created, hM.nodup, hM.pinned, hM.unpinned, hM.recent,
      hM.cached, hM.backed, hM.snapshot⟩
  | check a =>
    simp only [PageWorld.handler] at hc
    split at hc
    next => simp at hc
    next ha =>
      obtain rfl := by simpa using hc
      refine .inl (runs_call (b := ()) (v := v) ?_ (runs_ret ⟨rfl, hM⟩))
      have hno : (B.asserts && !a) = false := by
        cases hA : B.asserts with
        | false => rfl
        | true => simpa [hB.asserts hA] using ha
      simp [Store.handler, PageBuffer.handler, hno]
  | raise e => simp [PageWorld.handler] at hc

/-- Once a changed page was released clean, this stays so. -/
theorem kept_of_handler {β : Type} {c : PageCmd D H β} {b : β} {w₁ : PageWorld D H}
    (hc : PageWorld.handler R β c w = .ok b w₁) (hkept : w₁.kept) : w.kept := by
  cases c <;> grind [PageWorld.handler]

/-- A run on the ideal store that loses nothing is a run on the page buffer. -/
theorem ends_run (hB : Serves B R T) (hM : Mirrors B w v) {p : PageProg D H α}
    {Q : α → PageWorld D H → Prop}
    (hp : Runs (PageWorld.handler R) p w fun a w₁ => w₁.kept ∧ Q a w₁) :
    Ends (Store.handler B) T (onBuffer p) v fun a v₁ => ∃ w₁, Mirrors B w₁ v₁ ∧ w₁.kept ∧ Q a w₁ := by
  obtain ⟨n, a, w₁, hn, hk, hQ⟩ := hp
  have h := ends_expand (G := PageWorld.kept) (S := Mirrors B)
    (fun _ _ _ _ _ hc => kept_of_handler hc) (fun _ _ _ _ _ _ hM hc hk => ends_onBuffer hB hM hc hk)
    hM hn hk
  refine h.imp (·.mono ?_) fun h => h
  rintro _ v₁ ⟨rfl, hM₁⟩
  exact ⟨w₁, hM₁, hk, hQ⟩

/-- A page buffer without pins, before anything was pinned. -/
theorem mirrors_new {blocks : PageId → D} {created : ℕ} {zero : D} {header : H} {kept : Prop}
    {mem : PageId → Option D} (hmem : ∀ id d, mem id = some d → blocks id = d) :
    Mirrors B ⟨mem, created, header, [], [], kept⟩
      (.open header (PageBuffer.new B blocks created zero)) where
  inv := inv_new B blocks created zero
  header := rfl
  created := rfl
  nodup := List.nodup_nil
  pinned p hp := by simp at hp
  unpinned id _ s _ := rfl
  recent id hr := by simp at hr
  cached id d _ s hs := by simp [Store.open, PageBuffer.new] at hs
  backed id d hd _ := ⟨fun _ => hmem id d hd, fun s hs => by simp [Store.open, PageBuffer.new] at hs⟩
  snapshot id d hd := by simp at hd

end Run

end BEpsilon.Buffer
