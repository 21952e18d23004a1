import BEpsilon.Buffer.StoreFull
import BEpsilon.BTree.InsertFull
import BEpsilon.BTree.OnBuffer

/-!
# BEpsilon.BTree.InsertFails — what an insert that fails leaves in the tree

On a page buffer of any size, a call that returns leaves the tree of the map that it should.  An `insert`
that finds the buffer full leaves all pairs below the root, except on two slots: there a split of the root
fails after the right half of the root has been moved to a page that nothing refers to.
-/

namespace BEpsilon.BTree

open Slots PageWorld Buffer

variable {K V : Type} [LinearOrder K]

/-- The nodes in the pages of a store. -/
def nodes (v : Store (BNode K V) Header) : PageId → Option (BNode K V) := fun id => some (v.page id)

/-- Between two calls: the store holds the tree of the map `L` below the page `root`, and nothing is pinned. -/
def Rests (B : BufRules) (N : NodeSizes) (root : PageId) (L : K → Option V) (v : Store (BNode K V) Header) : Prop :=
  ∃ w, Mirrors B w v ∧ AtRest (idealFor B (some B.N)) N root L w

theorem fits_idealFor (B : BufRules) : Fits B (idealFor B (some B.N)) := ⟨rfl, fun _ => rfl, rfl⟩

section Pages

variable {N : NodeSizes} {mem mem' : PageId → Option (BNode K V)} {root page : PageId} {key : K}

theorem onPath_congr (hm : ∀ page, OnPath mem key root page → mem' page = mem page) :
    OnPath mem' key root page ↔ OnPath mem key root page := by
  refine ⟨?_, ?_⟩
  · intro hp
    induction hp with
    | refl => exact .refl
    | child _ hn ih => exact .child ih ((hm _ ih).symm.trans hn)
  · intro hp
    induction hp with
    | refl => exact .refl
    | child hp hn ih => exact .child ih ((hm _ hp).trans hn)

/-- Only the pages on the path matter. -/
theorem rootSplits_congr (hm : ∀ page, OnPath mem key root page → mem' page = mem page) :
    RootSplits N mem' root key ↔ RootSplits N mem root key := by
  have hroot := hm root .refl
  refine or_congr ?_ ?_
  · rw [hroot]
  · rw [hroot]
    refine exists_congr fun n => exists_congr fun page => exists_congr fun t => ?_
    refine and_congr_right fun _ => and_congr_right fun _ => ?_
    rw [onPath_congr hm]
    refine and_congr_right fun hp => ?_
    rw [hm page hp]

end Pages

section Stores

variable {B : BufRules} {N : NodeSizes} {root : PageId} {L : K → Option V} {v : Store (BNode K V) Header}
  {w w' : PageWorld (BNode K V) Header} {R : PageRules} {key : K} {p : K × V}

omit [LinearOrder K] in
theorem nodes_of_mem (hM : Mirrors B w v) {id : PageId} {d : BNode K V} (hd : w.mem id = some d) :
    nodes v id = some d := by
  rw [nodes, hM.page_eq hd]

omit [LinearOrder K] in
theorem nodes_eq (hM : Mirrors B w v) {id : PageId} (hd : w.mem id ≠ none) : nodes v id = w.mem id := by
  obtain ⟨d, hd⟩ := Option.ne_none_iff_exists'.mp hd
  rw [nodes_of_mem hM hd, hd]

/-- The pairs below the root while the memory is that of a tree at rest. -/
theorem mem_pairs_nodes (hM : Mirrors B w' v) (hw : AtRest R N root L w) (hmem : w'.mem = w.mem) :
    p ∈ pairs (nodes v) root ↔ L p.1 = some p.2 := by
  obtain ⟨⟨H, pg, hT⟩, rfl, -, -⟩ := hw
  rw [← hmem] at hT
  rw [← hT.routed.top p.1, hT.mem_pairs le_rfl p.1 fun g hg x => nodes_eq hM (hT.mem_page hg x)]
  exact ⟨fun h => h.1, fun h => ⟨h, rfl⟩⟩

theorem rootSplits_nodes (hM : Mirrors B w v) (hw : AtRest R N root L w) (key : K) :
    RootSplits N (nodes v) root key ↔ RootSplits N w.mem root key := by
  obtain ⟨⟨H, pg, hT⟩, rfl, -, -⟩ := hw
  refine rootSplits_congr fun page hp => ?_
  obtain ⟨h, hh, rfl⟩ := hT.onPath_iff.mp hp
  exact nodes_eq hM (hT.mem_page hh key)

theorem Rests.mem_pairs (hv : Rests B N root L v) : p ∈ pairs (nodes v) root ↔ L p.1 = some p.2 := by
  obtain ⟨w, hM, hw⟩ := hv
  exact mem_pairs_nodes hM hw rfl

variable [Inhabited K] [Inhabited V]

/-- The pairs below the root once its right half is gone. -/
theorem mem_pairs_halved (hM : Mirrors B w' v) (hw : AtRest R N root L w) {d : BNode K V}
    (hd : w.mem root = some d) (hs : RootSplits N w.mem root key)
    (hmem : w'.mem = Function.update (Function.update w.mem (R.ids w.created) (some d.rightHalf)) root
      (some d.leftHalf)) :
    p ∈ pairs (nodes v) root ↔ L p.1 = some p.2 ∧ p.1 ≤ d.middle := by
  obtain ⟨⟨H, pg, hT⟩, rfl, -, -⟩ := hw
  have hroot : nodes v w.header.rootID = some d.leftHalf := by
    refine nodes_of_mem hM ?_
    rw [hmem, Function.update_self]
  cases d with
  | leaf t =>
    refine hT.mem_pairs_leftLeaf hd ?_ hroot
    rw [((rootSplits_leaf hd).mp hs).1]
    exact N.leaf_ge
  | inner n =>
    refine hT.mem_pairs_leftInner hd hroot fun id hid hne => ?_
    have hold : w'.mem id = w.mem id := by
      rw [hmem, Function.update_of_ne hid, Function.update_of_ne]
      rintro rfl
      exact hne (hT.fresh_mem R.ids_inj le_rfl)
    rw [← hold]
    exact nodes_eq hM (hold ▸ hne)

end Stores

/-! ### Calls on a page buffer of any size -/

section Calls

variable [DecidableEq V] [Inhabited K] [Inhabited V] {B : BufRules} {N : NodeSizes} {root : PageId}
  {L : K → Option V} {v v' : Store (BNode K V) Header} {w : PageWorld (BNode K V) Header} {R : PageRules}
  {key : K} {value : V}

theorem insert_unlimited (hw : AtRest R N root L w) (key : K) (value : V) :
    Runs (handler R.unlimited) (insert N key value) w fun _ w' =>
      AtRest R.unlimited N root (Function.update L key (some value)) w' :=
  (insert_spec (R := R.unlimited) (by simp [PageRules.unlimited])
    ⟨hw.tree, hw.rootID, hw.pins, hw.kept⟩ key value)

omit [DecidableEq V] [Inhabited K] [Inhabited V] in
/-- The rules of the ideal store do not matter to what it holds. -/
theorem AtRest.of_ids {R' : PageRules} (hw : AtRest R N root L w) (hids : R'.ids = R.ids) : AtRest R' N root L w :=
  ⟨by rw [hids]; exact hw.tree, hw.rootID, hw.pins, hw.kept⟩

/-- A call that returns, on a page buffer of any size, answers as the plain map does and leaves the tree of the
map after the call. -/
theorem Rests.call [Add V] {op : MapOp K V} {a : List (Option V)} (hv : Rests B N root L v)
    (hr : Returns (Store.handler B) (onBuffer (call N op)) v a v') :
    a = op.answer L ∧ Rests B N root (op.apply L) v' := by
  obtain ⟨w, hM, hw⟩ := hv
  have hB : Serves B (idealFor B none) (· = .buf .bufferFull) := ⟨rfl, fun _ => rfl, .inr rfl⟩
  have hrun := (call_spec (R := idealFor B none) (by simp [idealFor]) (hw.of_ids rfl) op)
  rcases ends_run hB hM (hrun.mono fun _ _ h => ⟨h.2.kept, h⟩) with hruns | ⟨e, -, hraise⟩
  · obtain ⟨w', hM', -, ha, hw'⟩ := hr.of_runs hruns
    exact ⟨ha, w', hM', hw'.of_ids rfl⟩
  · exact absurd hraise hr.not_raises

/-- The calls on an empty directory, as long as all of them return. -/
theorem rests_session [Add V] {blocks : PageId → BNode K V} {zero : BNode K V} {ops : List (MapOp K V)}
    {a : List (Option V)}
    (hr : Returns (Store.handler B) (onBuffer (session N ops)) (.open {} (PageBuffer.new B blocks 0 zero)) a v) :
    Rests B N (B.ids 0) (MapOp.applyAll (fun _ => none) ops) v := by
  have hB : Serves B (idealFor B none) (· = .buf .bufferFull) := ⟨rfl, fun _ => rfl, .inr rfl⟩
  have hM : Mirrors B (.empty ({} : Header)) (.open {} (PageBuffer.new B blocks 0 zero)) := mirrors_new (by simp)
  have hrun := session_spec (R := idealFor B none) (N := N) (by simp [idealFor]) ops
  rcases ends_run hB hM (hrun.mono fun _ _ h => ⟨h.2.kept, h⟩) with hruns | ⟨e, -, hraise⟩
  · obtain ⟨w', hM', -, -, hw'⟩ := hr.of_runs hruns
    exact ⟨w', hM', hw'.of_ids rfl⟩
  · exact absurd hraise hr.not_raises

section Insert

variable (hB : Fits B R) (hM : Mirrors B w v) (hw : AtRest R N root L w)
include hB hM hw

/-- Where an `insert` finds the page buffer full. -/
theorem midway_of_raises {Q : Store (BNode K V) Header → Prop}
    (hr : Raises (Store.handler B) (onBuffer (insert N key value)) v (.buf .bufferFull) Q) :
    ∃ w' v₁, Midway R N B.N key w w' ∧ Mirrors B w' v₁ ∧ Q v₁.stuck := by
  have hnot : ∀ Q : Unit → PageWorld (BNode K V) Header → Prop,
      ¬ Runs (handler R) (insert N key value) w fun u w' => w'.kept ∧ Q u w' :=
    fun Q hrun => hr.not_runs ((ends_run hB.serves hM hrun).runs fun _ => id)
  by_cases h2 : B.N ≤ 2
  · obtain ⟨H, pg, hT⟩ := hw.tree
    rcases runs_or_full (insert_unlimited hw key value) with hrun | hfull
    · exact absurd (hrun.mono fun _ _ h => ⟨h.kept, h⟩) (hnot _)
    · obtain ⟨-, v', hQ, w', v₁, hmid, -, hM', rfl⟩ := hr.det
        (raises_run hB hM (fun _ => Midway.kept) (full_insert hB.limit h2 hT key value hw.pins hw.kept) hfull)
      exact ⟨w', v₁, hmid, hM', hQ⟩
  · have hrun := (insert_spec (R := R) (fun n hn => by
      obtain rfl := Option.some.inj (hB.limit.symm.trans hn)
      omega) hw key value)
    exact absurd (hrun.mono fun _ _ h => ⟨h.kept, h⟩) (hnot _)

/-- On two slots an `insert` that splits the root fails halfway. -/
theorem raises_of_rootSplits (value : V) (h2 : B.N = 2) (hs : RootSplits N w.mem w.header.rootID key) :
    Raises (Store.handler B) (onBuffer (insert N key value)) v (.buf .bufferFull) fun v' =>
      ∃ w' v₁, Midway R N B.N key w w' ∧ Mirrors B w' v₁ ∧ v' = v₁.stuck := by
  obtain ⟨H, pg, hT⟩ := hw.tree
  have halways := full_insert hB.limit h2.le hT key value hw.pins hw.kept
  rcases runs_or_full (insert_unlimited hw key value) with ⟨n, u, w', hn, -⟩ | hfull
  · exact absurd ⟨h2, hs⟩ (halways.of_returns ⟨n, hn⟩)
  · obtain ⟨n, v', hn, w', v₁, hmid, -, hM', rfl⟩ := raises_run hB hM (fun _ => Midway.kept) halways hfull
    exact ⟨n, _, hn, w', v₁, hmid, hM', rfl⟩

end Insert

/-- On two slots a split of the root loses the pairs of the right half. -/
theorem insert_loses (hv : Rests B N root L v) (h2 : B.N = 2) (hs : SplitsPairsOff N (nodes v) root key) (value : V) :
    ∃ v', Raises (Store.handler B) (onBuffer (insert N key value)) v (.buf .bufferFull) (· = v') ∧
      pairs (nodes v') root ≠ pairs (nodes v) root := by
  obtain ⟨w, hM, hw⟩ := hv
  obtain ⟨hs, d, hd, p, hp, hlt⟩ := hs
  have hs := (rootSplits_nodes hM hw key).mp hs
  obtain rfl := hw.rootID
  obtain ⟨n, v', hn, w', v₁, hmid, hM', rfl⟩ := raises_of_rootSplits (fits_idealFor B) hM hw value h2 hs
  refine ⟨v₁.stuck, ⟨n, _, hn, rfl⟩, ?_⟩
  intro hsame
  cases hmid with
  | untouched hnot _ _ => exact hnot ⟨h2, hs⟩
  | halved _ _ hd' hmem _ =>
    obtain rfl := Option.some.inj ((nodes_of_mem hM hd').symm.trans hd)
    rw [← hsame] at hp
    exact absurd ((mem_pairs_halved hM' hw hd' hs hmem).mp hp).2 (not_le.mpr hlt)

/-- Everywhere else nothing is lost. -/
theorem insert_keeps (hv : Rests B N root L v) (hnot : ¬ (B.N = 2 ∧ SplitsPairsOff N (nodes v) root key))
    (hr : Raises (Store.handler B) (onBuffer (insert N key value)) v (.buf .bufferFull) (· = v')) :
    pairs (nodes v') root = pairs (nodes v) root := by
  obtain ⟨w, hM, hw⟩ := hv
  have hsplits := rootSplits_nodes hM hw key
  obtain rfl := hw.rootID
  obtain ⟨w', v₁, hmid, hM', rfl⟩ := midway_of_raises (fits_idealFor B) hM hw hr
  show pairs (nodes v₁) w.header.rootID = pairs (nodes v) w.header.rootID
  ext p
  rw [mem_pairs_nodes hM hw rfl]
  cases hmid with
  | untouched _ hmem _ => exact mem_pairs_nodes hM' hw hmem
  | halved h2 hs hd hmem _ =>
    rw [mem_pairs_halved hM' hw hd hs hmem]
    refine ⟨fun h => h.1, fun hL => ⟨hL, ?_⟩⟩
    by_contra hgt
    refine hnot ⟨h2, hsplits.mpr hs, _, nodes_of_mem hM hd, p, ?_, not_le.mp hgt⟩
    exact (mem_pairs_nodes hM hw rfl).mpr hL

/-- An `insert` that finds the page buffer full leaves the pairs below the root as they were, unless the
buffer has two slots, the root has to be split and a pair stands in its right half. -/
theorem insert_full_keeps_iff {B : BufRules} {N : NodeSizes} {root : PageId} {L : K → Option V}
    {v : Store (BNode K V) Header} (hv : Rests B N root L v) (key : K) (value : V) :
    (∀ v', Raises (Store.handler B) (onBuffer (insert N key value)) v (.buf .bufferFull) (· = v') →
      pairs (nodes v') root = pairs (nodes v) root) ↔
        ¬ (B.N = 2 ∧ SplitsPairsOff N (nodes v) root key) := by
  refine ⟨?_, fun hnot v' hr => insert_keeps hv hnot hr⟩
  rintro hkeeps ⟨h2, hs⟩
  obtain ⟨v', hr, hne⟩ := insert_loses hv h2 hs value
  exact hne (hkeeps v' hr)

end Calls

/-! ### Two pairs on two slots -/

section TwoSlots

/-- A tree of small nodes in an empty directory, on a page buffer of two slots. -/
def twoSlots : Store (BNode ℕ ℕ) Header :=
  .open {} (PageBuffer.new (.basic 2) (fun _ => .fresh true) 0 (.fresh true))

/-- The session that fills the root leaf returns. -/
theorem twoSlots_filled : ∃ v a, Returns (Store.handler (.basic 2))
    (onBuffer (session ⟨2, 3, le_rfl, le_rfl, rfl⟩ [.insert 1 1, .insert 2 2])) twoSlots a v ∧
      SplitsPairsOff ⟨2, 3, le_rfl, le_rfl, rfl⟩ (nodes v) 0 3 := by
  have hrun := runs_of_exec (h := Store.handler (.basic 2)) (n := 200)
    (p := onBuffer (session ⟨2, 3, le_rfl, le_rfl, rfl⟩ [.insert 1 1, .insert 2 2])) (w := twoSlots)
    (f := fun _ v => match v.page 0 with
      | .leaf t => t.size == 2 && t.keys 0 == 1 && (t.get 3).isNone
      | .inner _ => false) (by decide)
  obtain ⟨n, a, v, hn, hf⟩ := hrun
  refine ⟨v, a, ⟨n, hn⟩, ?_⟩
  split at hf
  next t ht =>
    obtain ⟨⟨hsize, hkey⟩, hget⟩ := by simpa using hf
    have hroot : nodes v 0 = some (.leaf t) := congrArg some ht
    refine ⟨.inl ⟨t, hroot, hsize, hget⟩, .leaf t, hroot, (2, 2), ?_, ?_⟩
    · exact (rests_session ⟨n, hn⟩).mem_pairs.mpr rfl
    · simp [BNode.middle, hsize, hkey]
  next => cases hf

/-- The third `insert` finds the two slots used up, and the second pair is gone. -/
theorem insert_full_loses : ∃ v a v', Returns (Store.handler (.basic 2))
    (onBuffer (session ⟨2, 3, le_rfl, le_rfl, rfl⟩ [.insert 1 1, .insert 2 2])) twoSlots a v ∧
      Raises (Store.handler (.basic 2)) (onBuffer (insert ⟨2, 3, le_rfl, le_rfl, rfl⟩ 3 3)) v (.buf .bufferFull)
        (· = v') ∧
      pairs (nodes v') 0 ≠ pairs (nodes v) 0 := by
  obtain ⟨v, a, hr, hs⟩ := twoSlots_filled
  obtain ⟨v', hraise, hne⟩ := insert_loses (rests_session hr) rfl hs 3
  exact ⟨v, a, v', hr, hraise, hne⟩

/-- The theorem at that state. -/
theorem insert_full_keeps_iff_twoSlots : ∃ v,
    ((∀ v', Raises (Store.handler (.basic 2)) (onBuffer (insert ⟨2, 3, le_rfl, le_rfl, rfl⟩ 3 3)) v
        (.buf .bufferFull) (· = v') → pairs (nodes v') 0 = pairs (nodes v) 0) ↔
      ¬ ((BufRules.basic 2).N = 2 ∧ SplitsPairsOff ⟨2, 3, le_rfl, le_rfl, rfl⟩ (nodes v) 0 3)) := by
  obtain ⟨v, a, hr, -⟩ := twoSlots_filled
  exact ⟨v, insert_full_keeps_iff (rests_session hr) 3 3⟩

end TwoSlots

end BEpsilon.BTree
