import BEpsilon.BTree.InsertRoot

/-!
# BEpsilon.BTree.Search — correctness of `update`, `erase`, `find` and the constructor

The descent of the three operations reaches the leaf on the path of the key with one page pinned and
the tree as it was; what they do there is one rewrite of that leaf.
-/

namespace BEpsilon.BTree

open Slots PageWorld

variable {K V : Type} [LinearOrder K] {N : NodeSizes} {R : PageRules}
  {mem : PageId → Option (BNode K V)} {created H : ℕ} {header : Header} {pg : ℕ → K → PageId}
  {L : K → Option V} {recent : List PageId}

variable (hlim : ∀ n ∈ R.limit, 3 ≤ n)
include hlim

/-- The descent reaches the leaf on the path of `key`. -/
theorem iter_descend (hT : TreeInv R.ids N mem header created H pg L) {key : K}
    {mode : LatchMode (BNode K V)} {n : ℕ} (hn : n ≤ H) :
    Runs (handler R) (Prog.iter (descend key mode) (pg n key))
      ⟨mem, created, header, [(pg n key, mem (pg n key))], recent, True⟩ fun page w =>
      page = pg 0 key ∧ ∃ recent',
        w = ⟨mem, created, header, [(pg 0 key, mem (pg 0 key))], recent', True⟩ := by
  refine runs_loop (fun n s w => n ≤ H ∧ s = pg n key ∧ ∃ recent,
    w = ⟨mem, created, header, [(pg n key, mem (pg n key))], recent, True⟩) ?_
    ⟨hn, rfl, recent, rfl⟩
  rintro n s w ⟨hn, rfl, recent, rfl⟩
  simp only [descend, Prog.bind_def, Prog.pure_def]
  cases n with
  | zero =>
    obtain ⟨t, ht, -, -⟩ := hT.leaf_page key
    exact runs_read ht (.inl ⟨_, List.mem_cons_self⟩) (runs_ret (runs_ret ⟨rfl, recent, rfl⟩))
  | succ n =>
    obtain ⟨t, ht, -, hchild⟩ := hT.inner_page (h := n) (by omega) key
    have hcm : mem (pg n key) ≠ none := hT.mem_page (by omega) key
    have hcs : (mem (pg n key)).isSome = !false := by simpa [Option.isSome_iff_ne_none] using hcm
    have hne : pg (n + 1) key ≠ pg n key := hT.routed.page_ne (by omega) (by omega) (by omega)
    refine runs_read ht (.inl ⟨_, List.mem_cons_self⟩) ?_
    simp only [hchild]
    refine runs_pinPage (by simpa using hne) (le_limit hlim (by simp)) hcs (hT.known _ hcm) ?_
    refine runs_unpin_second hne.symm (by simp [ht]) (.inr rfl) (runs_ret ?_)
    exact ⟨n, by omega, by omega, rfl, _, rfl⟩

/-- Pinning the root of a tree at rest. -/
theorem runs_pinRoot {α : Type} (hT : TreeInv R.ids N mem header created H pg L) (key : K)
    {mode : LatchMode (BNode K V)} {f : Unit → BProg K V α}
    {Q : α → PageWorld (BNode K V) Header → Prop}
    (h : Runs (handler R) (f ()) ⟨mem, created, header, [(pg H key, mem (pg H key))], [], True⟩ Q) :
    Runs (handler R) ((PageProg.pinPage header.rootID mode false).bind f)
      ⟨mem, created, header, [], recent, True⟩ Q := by
  have hcm : mem (pg H key) ≠ none := hT.mem_page le_rfl key
  have hcs : (mem (pg H key)).isSome = !false := by simpa [Option.isSome_iff_ne_none] using hcm
  have hroot : header.rootID = pg H key := (hT.routed.top key).symm
  rw [hroot]
  exact runs_pinPage (by simp) (le_limit hlim (by simp)) hcs (hT.known _ hcm) h

/-- `update` and `erase` pin the leaf on the path of `key`. -/
theorem runs_descendToLeaf (hT : TreeInv R.ids N mem header created H pg L) (key : K) :
    Runs (handler R) (descendToLeaf key) ⟨mem, created, header, [], recent, True⟩ fun page w =>
      page = pg 0 key ∧ ∃ recent',
        w = ⟨mem, created, header, [(pg 0 key, mem (pg 0 key))], recent', True⟩ := by
  have hroot : header.rootID = pg H key := (hT.routed.top key).symm
  obtain ⟨d, hd⟩ := Option.ne_none_iff_exists'.mp (hT.mem_page le_rfl key)
  simp only [descendToLeaf, Prog.bind_def]
  refine runs_getHeader (runs_pinRoot hlim hT key (runs_read (by rw [hroot]; exact hd)
    (.inl ⟨_, by rw [hroot]; exact List.mem_cons_self⟩) ?_))
  have hdown : ∀ recent, Runs (handler R) (Prog.iter (descend key (.modeFunction BNode.isLeaf))
      header.rootID) ⟨mem, created, header, [(pg H key, mem (pg H key))], recent, True⟩ fun page w =>
      page = pg 0 key ∧ ∃ recent',
        w = ⟨mem, created, header, [(pg 0 key, mem (pg 0 key))], recent', True⟩ := fun recent => by
    rw [hroot]
    exact iter_descend hlim hT le_rfl
  split
  next hleaf =>
    -- repin the root leaf
    have hroot' : (mem header.rootID).isSome := by simp [hroot, hd]
    rw [← hroot]
    refine runs_unpin_head hroot' (.inr rfl) (runs_pinRoot hlim hT key (hdown _))
  next hleaf => exact hdown _

omit hlim in
theorem atRest_same (recent : List PageId) (hT : TreeInv R.ids N mem header created H pg L) {key : K}
    {t : BLeafNode K V}
    (ht : mem (pg 0 key) = some (.leaf t)) :
    AtRest R N header.rootID (Function.update L key (t.get key))
      ⟨mem, created, header, [], recent, True⟩ := by
  have h := atRest_put recent hT rfl ht (LeafSet.same (hT.nodes _ _ ht) key)
  rwa [show Function.update mem (pg 0 key) (some (.leaf t)) = mem by
    rw [← ht]; exact Function.update_eq_self _ _] at h

variable {root : PageId} {w : PageWorld (BNode K V) Header}

/-- `update` adds to the value of `key`. -/
theorem update_spec [Add V] (hw : AtRest R N root L w) (key : K) (value : V) :
    Runs (handler R) (update key value) w fun _ w' =>
      AtRest R N root (Function.update L key ((L key).map (· + value))) w' := by
  obtain ⟨mem, created, header, pins, recent, kept⟩ := w
  obtain ⟨⟨H, pg, hT⟩, rfl, rfl, hkept⟩ := hw
  obtain rfl : kept = True := eq_true hkept
  obtain ⟨t, ht, htok, -⟩ := hT.leaf_page key
  simp only at hT ht ⊢
  simp only [update, Prog.bind_def]
  refine runs_bind ((runs_descendToLeaf hlim hT key).mono ?_)
  rintro _ _ ⟨rfl, recent', rfl⟩
  refine runs_asLeaf ht (.inl ⟨_, List.mem_cons_self⟩) ?_
  rw [← hT.data key t ht]
  split
  next hk =>
    rw [LeafOk.get_eq_some hk]
    exact runs_write ⟨_, List.mem_cons_self⟩ (runs_unpin_last (by simp) (.inl rfl)
      (atRest_put _ hT rfl ht (LeafSet.overwrite htok hk)))
  next hk =>
    have h := atRest_same (pg 0 key :: recent') hT ht
    rw [htok.get_eq_none hk] at h ⊢
    exact runs_unpin_last (by simp [ht]) (.inr rfl) h

/-- `erase` removes `key`. -/
theorem erase_spec (hw : AtRest R N root L w) (key : K) :
    Runs (handler R) (erase key) w fun _ w' => AtRest R N root (Function.update L key none) w' := by
  obtain ⟨mem, created, header, pins, recent, kept⟩ := w
  obtain ⟨⟨H, pg, hT⟩, rfl, rfl, hkept⟩ := hw
  obtain rfl : kept = True := eq_true hkept
  obtain ⟨t, ht, htok, -⟩ := hT.leaf_page key
  simp only at hT ht ⊢
  simp only [erase, Prog.bind_def]
  refine runs_bind ((runs_descendToLeaf hlim hT key).mono ?_)
  rintro _ _ ⟨rfl, recent', rfl⟩
  refine runs_asLeaf ht (.inl ⟨_, List.mem_cons_self⟩) ?_
  split
  next hk =>
    refine runs_check (fun _ => decide_eq_true (by omega)) ?_
    exact runs_write ⟨_, List.mem_cons_self⟩ (runs_unpin_last (by simp) (.inl rfl)
      (atRest_put _ hT rfl ht (LeafSet.erasePair htok hk)))
  next hk =>
    have h := atRest_same (pg 0 key :: recent') hT ht
    rw [htok.get_eq_none hk] at h
    exact runs_unpin_last (by simp [ht]) (.inr rfl) h

/-- `find` answers what the map says about `key` and changes nothing. -/
theorem find_spec (hw : AtRest R N root L w) (key : K) :
    Runs (handler R) (find key) w fun o w' => o = L key ∧ AtRest R N root L w' := by
  obtain ⟨mem, created, header, pins, recent, kept⟩ := w
  obtain ⟨⟨H, pg, hT⟩, rfl, rfl, hkept⟩ := hw
  obtain rfl : kept = True := eq_true hkept
  obtain ⟨t, ht, htok, -⟩ := hT.leaf_page key
  have hroot : header.rootID = pg H key := (hT.routed.top key).symm
  simp only at hT ht ⊢
  simp only [find, Prog.bind_def, Prog.pure_def]
  refine runs_getHeader (runs_pinRoot hlim hT key ?_)
  nth_rewrite 1 [hroot]
  refine runs_bind ((iter_descend hlim hT le_rfl).mono ?_)
  rintro _ _ ⟨rfl, recent', rfl⟩
  refine runs_asLeaf ht (.inl ⟨_, List.mem_cons_self⟩) (runs_unpin_head (by simp [ht]) (.inr rfl) ?_)
  exact runs_ret ⟨hT.data key t ht, ⟨H, pg, hT⟩, rfl, rfl, trivial⟩

end BEpsilon.BTree
