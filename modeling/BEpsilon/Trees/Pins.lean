import BEpsilon.BTree.Pins
import BEpsilon.BeTree.Pins
import BEpsilon.Buffer.Outcomes
import BEpsilon.Buffer.TreeStore
import BEpsilon.BTree.Refine

/-!
# BEpsilon.Trees.Pins — the operations of both trees release what they pin

An operation that is tidy leaves the pin counts of the page buffer as they were, whatever else is pinned at
the time.  All operations of both trees are tidy, also when other threads change the pages in between.
-/

namespace BEpsilon

open Buffer

variable {D H : Type} {B : BufRules} {base : PageId → ℕ} {v v' : Store D H} {l : Multiset PageId}

/-- The page buffer while an operation holds the pages `l`: their pins are there on top of the others', and
the references of the operation lead to their slots. -/
structure Holding (B : BufRules) (base : PageId → ℕ) (v : Store D H) (l : Multiset PageId) : Prop where
  inv : Inv B v.buf
  count : ∀ id, v.buf.pinsOf id = base id + l.count id
  refs : ∀ id ∈ l, v.buf.pageTable.lookup id = some (v.ref id)

/-- The steps of a tree over its page buffer, one command at a time. -/
def bufferSteps (B : BufRules) : Steps (PageCmd D H) (Store D H) := expanded (Store.handler B) PageCmd.onBuffer

section Commands

variable {id : PageId}

theorem bufferSteps_read {d : D} (hs : bufferSteps B D (.read id) v d v') :
    d = (v.buf.pages (v.ref id)).data ∧ v' = v := by
  have hrun : Runs (Store.handler B) (PageCmd.onBuffer D (.read id)) v fun d v' =>
      d = (v.buf.pages (v.ref id)).data ∧ v' = v := runs_call rfl (runs_call rfl (runs_ret ⟨rfl, rfl⟩))
  exact Returns.of_runs (Q := fun d v' => d = (v.buf.pages (v.ref id)).data ∧ v' = v) hs hrun

theorem bufferSteps_check {b : Bool} (hs : bufferSteps B Unit (.check b) v () v') : v' = v := by
  cases hb : B.asserts && !b with
  | true =>
    have hraise : Store.handler (H := H) B Unit (.inl (.check b)) v = .raise (.buf .assertFailed) v := by
      simp [Store.handler, PageBuffer.handler, hb]
    exact absurd (raises_call hraise trivial) (Returns.not_raises (Q := fun _ => True) hs)
  | false =>
    have hok : Store.handler (H := H) B Unit (.inl (.check b)) v = .ok () v := by
      simp [Store.handler, PageBuffer.handler, hb]
    exact Returns.of_runs (Q := fun _ v' => v' = v) hs (runs_call hok (runs_ret rfl))

/-- Between two reads of a page by one operation the page stays the same. -/
theorem bufferSteps_steady (B : BufRules) : Steady (bufferSteps (D := D) (H := H) B) := by
  intro id b d d' v v₁ v₂ v₃ h₁ h₂ h₃
  obtain ⟨rfl, rfl⟩ := bufferSteps_read h₁
  obtain rfl := bufferSteps_check h₂
  exact (bufferSteps_read h₃).1

/-- A command that leaves the table and the pins alone. -/
theorem Holding.same (hv : Holding B base v l) (hinv : Inv B v'.buf)
    (htable : v'.buf.pageTable = v.buf.pageTable) (hcount : ∀ id, v'.buf.pinsOf id = v.buf.pinsOf id)
    (hrefs : v'.ref = v.ref) : Holding B base v' l := by
  refine ⟨hinv, ?_, ?_⟩
  · intro id
    rw [hcount, hv.count]
  · intro id hid
    rw [htable, hrefs]
    exact hv.refs id hid

theorem Holding.pin {mode : LatchMode D} {skipLoad : Bool} (hv : Holding B base v l)
    (hs : bufferSteps B Unit (.pinPage id mode skipLoad) v () v') : Holding B base v' (id ::ₘ l) := by
  rcases hv.inv.pinPage_outcome id mode skipLoad with hrun | ⟨e, hraise⟩
  · have hstore : Runs (Store.handler B) (PageCmd.onBuffer Unit (.pinPage id mode skipLoad)) v fun _ v' =>
        ∃ s b, OneMore B v.buf b id s ∧ v' = { v with buf := b, ref := Function.update v.ref id s } := by
      refine runs_bind ((runs_buf hrun).mono ?_)
      rintro s _ ⟨b, rfl, h⟩
      exact runs_call rfl (runs_ret ⟨s, b, h, rfl⟩)
    obtain ⟨s, b, h, rfl⟩ := Returns.of_runs hs hstore
    refine ⟨h.inv, ?_, ?_⟩
    · intro id'
      by_cases e : id' = id
      · subst e
        rw [Multiset.count_cons_self, ← Nat.add_assoc, ← hv.count]
        exact h.self
      · rw [Multiset.count_cons_of_ne e, ← hv.count]
        exact h.others id' e
    · intro id' hid'
      by_cases e : id' = id
      · subst e
        simpa using h.slot
      · have hmem : id' ∈ l := (Multiset.mem_cons.mp hid').resolve_left e
        have hslot := hv.refs id' hmem
        have hpos := Multiset.count_pos.mpr hmem
        have hcount := hv.count id'
        rw [pinsOf_some hslot] at hcount
        simp only [Function.update_of_ne e]
        exact h.stays id' _ hslot (by omega)
  · exact absurd (Raises.bind (raises_buf hraise)) (Returns.not_raises hs)

theorem Holding.unpin {dirty : Bool} (hv : Holding B base v l) (hid : id ∈ l)
    (hs : bufferSteps B Unit (.unpinPage id dirty) v () v') : Holding B base v' (l.erase id) := by
  have hslot := hv.refs id hid
  have hpos := Multiset.count_pos.mpr hid
  have hcount := hv.count id
  rw [pinsOf_some hslot] at hcount
  have hpins : 1 ≤ (v.buf.pages (v.ref id)).pins := by omega
  have hstore : Runs (Store.handler B) (PageCmd.onBuffer Unit (.unpinPage id dirty)) v fun _ v' =>
      v' = { v with buf := v.buf.modifyPage (v.ref id) fun page => page.unpinned dirty } := by
    refine runs_call rfl ((runs_buf (unpinPage_returns hpins)).mono ?_)
    rintro _ _ ⟨_, rfl, rfl⟩
    rfl
  obtain rfl := Returns.of_runs hs hstore
  obtain ⟨hself, hothers⟩ := hv.inv.pinsOf_modifyPage (f := fun page => page.unpinned dirty) hslot
  refine ⟨hv.inv.unpinned hpins dirty, ?_, ?_⟩
  · intro id'
    by_cases e : id' = id
    · subst e
      rw [Multiset.count_erase_self, hself]
      simp only [Page.unpinned]
      omega
    · rw [Multiset.count_erase_of_ne e, ← hv.count]
      exact hothers id' e
  · intro id' hid'
    exact hv.refs id' (Multiset.mem_of_mem_erase hid')

end Commands

/-- Every command that returns keeps count. -/
theorem Holding.step {β : Type} {c : PageCmd D H β} {b : β} (hv : Holding B base v l) (hc : c.Releases l)
    (hs : bufferSteps B β c v b v') : Holding B base v' (c.held l) := by
  cases c with
  | createPage =>
    obtain rfl := Returns.of_runs (Q := fun _ v' => v' = { v with buf := { v.buf with created := v.buf.created + 1 } })
      hs (runs_call rfl (runs_ret rfl))
    exact hv.same hv.inv.createBlock rfl (fun _ => rfl) rfl
  | pinPage id mode skipLoad => exact hv.pin hs
  | unpinPage id dirty => exact hv.unpin hc hs
  | read id =>
    obtain ⟨-, rfl⟩ := bufferSteps_read hs
    exact hv
  | peek id f =>
    obtain rfl := Returns.of_runs (Q := fun _ v' => v' = v) hs (runs_call rfl (runs_call rfl (runs_ret rfl)))
    exact hv
  | write id d =>
    obtain rfl := Returns.of_runs (Q := fun _ v' => v' =
      { v with buf := v.buf.modifyPage (v.ref id) fun page => { page with data := d } })
      hs (runs_call rfl (runs_call rfl (runs_ret rfl)))
    refine hv.same ?_ rfl (pinsOf_modifyPage_same rfl) rfl
    exact hv.inv.modifyPage (f := fun page => { page with data := d }) rfl (hv.inv.latch _) (hv.inv.free_pins _)
  | header f =>
    obtain rfl := Returns.of_runs (Q := fun _ v' => v' = { v with header := f v.header }) hs
      (runs_call rfl (runs_ret rfl))
    exact hv.same hv.inv rfl (fun _ => rfl) rfl
  | check b =>
    obtain rfl := bufferSteps_check hs
    exact hv
  | raise e => exact b.elim

/-- A tidy operation that returns leaves every pin count as it was. -/
theorem Tidy.pins_kept {α : Type} {p : PageProg D H α} {a : α} (hp : Tidy (bufferSteps B) p) (hv : Inv B v.buf)
    (hr : Returns (Store.handler B) (onBuffer p) v a v') :
    Inv B v'.buf ∧ ∀ id, v'.buf.pinsOf id = v.buf.pinsOf id := by
  have hstart : Holding B v.buf.pinsOf v 0 := ⟨hv, fun id => rfl, fun id hid => absurd hid (Multiset.notMem_zero id)⟩
  have hkeeps := (hp v).keeps (J := fun x => Holding B v.buf.pinsOf x.1 x.2)
    (fun β c x b x' hx hc hs => hs.2 ▸ hx.step hc hs.1) hstart
  obtain ⟨n, hn⟩ := hr.comes
  obtain ⟨m, hm⟩ := hn.of_expand
  obtain ⟨l', hm⟩ := hm.holding 0
  obtain ⟨hl', hend⟩ := (hkeeps m _ _ hm).2 a rfl
  dsimp only at hl' hend
  subst hl'
  exact ⟨hend.inv, fun id => hend.count id⟩

/-! ### Both trees -/

section Trees

variable {K V : Type}

/-- The stores that the calls of a tree lead to, on a directory in any state. -/
inductive Reached (B : BufRules) (create : PageProg D H Unit) (op : MapOp K V → PageProg D H (List (Option V))) :
    Store D H → Prop
  | opened (header : H) (blocks : PageId → D) (created : ℕ) (zero : D) :
      Reached B create op (.open header (.new B blocks created zero))
  | create {v v' : Store D H} (hv : Reached B create op v)
      (hr : Returns (Store.handler B) (onBuffer create) v () v') : Reached B create op v'
  | call {v v' : Store D H} {m : MapOp K V} {a : List (Option V)} (hv : Reached B create op v)
      (hr : Returns (Store.handler B) (onBuffer (op m)) v a v') : Reached B create op v'

/-- Every call unpins each page exactly as often as it pins it, whatever others change in the meantime,
and a call of one thread leaves all pin counts as they were. -/
structure Leakless (B : BufRules) (create : PageProg D H Unit) (op : MapOp K V → PageProg D H (List (Option V))) :
    Prop where
  tidy : ∀ (W : Type) (step : Steps (PageCmd D H) W), Steady step → ∀ m, Tidy step (op m)
  pins_kept : ∀ v, Reached B create op v → ∀ m a v', Returns (Store.handler B) (onBuffer (op m)) v a v' →
    ∀ id, v'.buf.pinsOf id = v.buf.pinsOf id

theorem Leakless.of_tidy {create : PageProg D H Unit} {op : MapOp K V → PageProg D H (List (Option V))}
    (hcreate : ∀ (W : Type) (step : Steps (PageCmd D H) W), Tidy step create)
    (hop : ∀ (W : Type) (step : Steps (PageCmd D H) W), Steady step → ∀ m, Tidy step (op m)) :
    Leakless B create op := by
  have hinv : ∀ v, Reached B create op v → Inv B v.buf := by
    intro v hv
    induction hv with
    | opened header blocks created zero => exact inv_new B blocks created zero
    | create _ hr ih => exact ((hcreate _ _).pins_kept ih hr).1
    | call _ hr ih => exact ((hop _ _ (bufferSteps_steady B) _).pins_kept ih hr).1
  refine ⟨hop, ?_⟩
  intro v hv m a v' hr
  exact ((hop _ _ (bufferSteps_steady B) m).pins_kept (hinv v hv) hr).2

variable {W : Type}

theorem Tidy.map {α β : Type} {step : Steps (PageCmd D H) W} {p : PageProg D H α} {f : α → β}
    (hp : Tidy step p) : Tidy step (p.bind fun a => .ret (f a)) := by
  refine Owns.tidy (owns_bind (Owns.mono (Q := fun _ l' => l' = 0) hp ?_))
  rintro a _ rfl
  exact owns_ret rfl

variable [LinearOrder K] [DecidableEq V] [Add V] [Inhabited K] [Inhabited V]

omit [LinearOrder K] [DecidableEq V] [Add V] in
theorem BTree.create_tidy {step : Steps (PageCmd (BTree.BNode K V) BTree.Header) W} : Tidy step BTree.create := by
  refine Owns.tidy ?_
  simp only [BTree.create, Prog.bind_def]
  refine owns_createPage fun id => owns_modifyHeader fun h => owns_pinPage (owns_write ?_)
  exact owns_unpinPage_last rfl rfl

theorem BTree.call_tidy {N : BTree.NodeSizes} {step : Steps (PageCmd (BTree.BNode K V) BTree.Header) W}
    (m : MapOp K V) : Tidy step (BTree.call N m) := by
  cases m with
  | insert key value => exact (BTree.insert_tidy key value).map
  | update key value => exact (BTree.update_tidy key value).map
  | erase key => exact (BTree.erase_tidy key).map
  | find key => exact (BTree.find_tidy key).map

omit [LinearOrder K] [DecidableEq V] [Add V] [Inhabited K] [Inhabited V] in
theorem BeTree.create_tidy {step : Steps (PageCmd (BeTree.BeNode K V) BeTree.Header) W} :
    Tidy step (BeTree.create O) := by
  refine Owns.tidy ?_
  simp only [BeTree.create, Prog.bind_def]
  refine owns_createPage fun id => owns_modifyHeader fun h => owns_pinPage (owns_write ?_)
  exact owns_unpinPage_last rfl rfl

variable [BoundedOrder K]

/-- A call of the Bε-tree, with its answer. -/
def BeTree.operation (N : BeTree.NodeSizes) (O : BeTree.Unspecified K V) :
    MapOp K V → BeTree.BeProg K V (List (Option V))
  | .insert key value => do BeTree.insert N O key value; return []
  | .update key value => do BeTree.update N O key value; return []
  | .erase key => do BeTree.erase N O key; return []
  | .find key => do return [← BeTree.find key]

theorem BeTree.operation_tidy {N : BeTree.NodeSizes} {O : BeTree.Unspecified K V}
    {step : Steps (PageCmd (BeTree.BeNode K V) BeTree.Header) W} (hsteady : Steady step) (hroot : 0 < N.ROOT_N)
    (m : MapOp K V) : Tidy step (BeTree.operation N O m) := by
  cases m with
  | insert key value => exact (BeTree.insert_tidy hsteady hroot key value).map
  | update key value => exact (BeTree.update_tidy hsteady hroot key value).map
  | erase key => exact (BeTree.erase_tidy hsteady hroot key).map
  | find key => exact (BeTree.find_tidy key).map

/-- No operation of either tree leaks a pin or releases one that it does not have. -/
theorem operations_leakless (B : BufRules) (N : BTree.NodeSizes) (M : BeTree.NodeSizes)
    (O : BeTree.Unspecified K V) (hroot : M.ROOT_N % 2 = 1) :
    Leakless B BTree.create (BTree.call (K := K) (V := V) N) ∧
      Leakless B (BeTree.create O) (BeTree.operation M O) := by
  refine ⟨?_, ?_⟩
  · exact .of_tidy (fun W step => BTree.create_tidy) fun W step _ m => BTree.call_tidy m
  · exact .of_tidy (fun W step => BeTree.create_tidy) fun W step hsteady m =>
      BeTree.operation_tidy hsteady (by omega) m

/-- Trees of small nodes on a page buffer of three slots. -/
theorem operations_leakless_small :
    Leakless (.basic 3) BTree.create (BTree.call (K := Fin 8) (V := ℕ) ⟨2, 3, le_rfl, le_rfl, rfl⟩) ∧
      Leakless (.basic 3) (BeTree.create (.basic _ _))
        (BeTree.operation (K := Fin 8) (V := ℕ) .smallest (.basic _ _)) :=
  operations_leakless (.basic 3) ⟨2, 3, le_rfl, le_rfl, rfl⟩ .smallest (.basic _ _) (by decide)

end Trees

end BEpsilon
