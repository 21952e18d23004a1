import BEpsilon.Buffer.PageLogic
import BEpsilon.BeTree.Program
import BEpsilon.BeTree.Tree
import BEpsilon.BeTree.Asserts

/-!
# BEpsilon.BeTree.Rules — rules for the routines on the ideal store

One rule for each routine that changes a page as a whole: access to a node, the splits of a leaf and of
an inner node, the median key and the removal of messages.  The asserts hold; the one that looks at the slot
past the end of a leaf does where the leaf is clear of the key to insert.
-/

namespace BEpsilon.BeTree

open Slots PageWorld

variable {K V α : Type} {N : NodeSizes} {R : PageRules} {mem : PageId → Option (BeNode K V)}
  {created : ℕ} {header : Header} {pins : List (PageId × Option (BeNode K V))} {recent : List PageId}
  {kept : Prop} {page : PageId} {Q : α → PageWorld (BeNode K V) Header → Prop}

theorem runs_asLeaf {n : BeLeafNode K V} {f : BeLeafNode K V → BeProg K V α}
    (hm : mem page = some (.leaf n)) (hr : (∃ s, (page, s) ∈ pins) ∨ page ∈ recent)
    (h : Runs (handler R) (f n) ⟨mem, created, header, pins, recent, kept⟩ Q) :
    Runs (handler R) ((asLeaf page).bind f) ⟨mem, created, header, pins, recent, kept⟩ Q :=
  runs_read hm hr h

theorem runs_asInner {n : BeInnerNode K V} {f : BeInnerNode K V → BeProg K V α}
    (hm : mem page = some (.inner n)) (hr : (∃ s, (page, s) ∈ pins) ∨ page ∈ recent)
    (h : Runs (handler R) (f n) ⟨mem, created, header, pins, recent, kept⟩ Q) :
    Runs (handler R) ((asInner page).bind f) ⟨mem, created, header, pins, recent, kept⟩ Q :=
  runs_read hm hr h

theorem runs_asRoot {n : BeRootNode K} {f : BeRootNode K → BeProg K V α}
    (hm : mem page = some (.root n)) (hr : (∃ s, (page, s) ∈ pins) ∨ page ∈ recent)
    (h : Runs (handler R) (f n) ⟨mem, created, header, pins, recent, kept⟩ Q) :
    Runs (handler R) ((asRoot page).bind f) ⟨mem, created, header, pins, recent, kept⟩ Q :=
  runs_read hm hr h

variable [LinearOrder K] [BoundedOrder K] [DecidableEq V] [Add V] [Inhabited K] [Inhabited V]

omit [DecidableEq V] [Add V] [Inhabited V] in
/-- `findMedianKey` raises no error. -/
theorem runs_medianKeyOf [Inhabited V] {n : BeLeafNode K V} {us : List (Upsert K V)} {f : K → BeProg K V α}
    {w : PageWorld (BeNode K V) Header} (hs : Sorted n.keys n.size)
    (hus : Keyed.KeysSorted Upsert.key us) (hpos : 1 ≤ n.size + us.length)
    (h : ∀ mid x y, MedianCut n.keys n.size (keyAt us) us.length mid x y →
      Runs (handler R) (f mid) w Q) :
    Runs (handler R) ((medianKeyOf n us).bind f) w Q := by
  obtain ⟨mid, x, y, he, hc⟩ := findMedianKey_spec hs.weakly (sorted_keyAt hus).weakly hpos
  have hret : medianKeyOf n us = Prog.ret mid := by
    have he' : findMedianKey n.keys n.size (fun i => (us.getD i default).key) us.length = some mid := he
    rw [medianKeyOf, he']
    rfl
  rw [hret]
  exact h mid x y hc

omit [BoundedOrder K] [DecidableEq V] [Inhabited K] [Inhabited V] in
theorem runs_removeMessages {O : Unspecified K V} {n : BeInnerNode K V} {us : List (Upsert K V)}
    {f : MessageMap K V → BeProg K V α} (hsort : Keyed.KeysSorted Upsert.key n.upserts.toList)
    (hus : Keyed.KeysSorted Upsert.key us) (hne : us ≠ [])
    (hmax : n.neededSlots N us ≤ N.MAX_FLUSH_SIZE) (hm : mem page = some (.inner n))
    (hpage : ∃ s, (page, s) ∈ pins)
    (h : Runs (handler R) (f (n.removeMessages N O us N.MAX_FLUSH_SIZE).2)
      ⟨Function.update mem page (some (.inner (n.removeMessages N O us N.MAX_FLUSH_SIZE).1)), created,
        header, pins, recent, kept⟩ Q) :
    Runs (handler R) ((removeMessages N O page us).bind f)
      ⟨mem, created, header, pins, recent, kept⟩ Q := by
  have hD := removeMessages_divided O hsort hus hne hmax
  simp only [removeMessages, Prog.bind_def, Prog.pure_def, Prog.bind_assoc, Prog.ret_bind]
  refine runs_asInner hm (.inl hpage) (runs_check (fun _ => removeMessagesAsserts_of_sorted hsort hus hmax) ?_)
  exact runs_check (fun _ => hD.asserts) (runs_write hpage h)

section Splits

variable (hpage : ∃ s, (page, s) ∈ pins) (hfresh : mem (R.ids created) = none)
  (hpins : ∀ p ∈ pins, p.1 ≠ R.ids created) (hlim : R.limit = none)
include hpage hfresh hpins hlim

omit [BoundedOrder K] [DecidableEq V] [Add V] [Inhabited K] [Inhabited V] in
theorem runs_splitLeafNode {n : BeLeafNode K V} {mid : K} {f : PageId × K → BeProg K V α}
    (hm : mem page = some (.leaf n)) (h2 : 2 ≤ n.size)
    (h : Runs (handler R) (f (R.ids created, mid))
      ⟨Function.update (Function.update mem (R.ids created)
          (some (.leaf (n.rightHalf (O.memory (R.ids created)) mid)))) page (some (.leaf (n.leftHalf mid))),
        created + 1, header, (R.ids created, none) :: pins, [], kept⟩ Q) :
    Runs (handler R) ((splitLeafNode O page mid).bind f)
      ⟨mem, created, header, pins, recent, kept⟩ Q := by
  simp only [splitLeafNode, Prog.bind_def, Prog.pure_def, Prog.bind_assoc, Prog.ret_bind]
  refine runs_asLeaf hm (.inl hpage) (runs_check (fun _ => decide_eq_true h2) (runs_createPage ?_))
  refine runs_pinPage hpins (by simp [hlim]) (by simp [hfresh]) ⟨created, by omega, rfl⟩ ?_
  refine runs_write ⟨_, List.mem_cons_self⟩ (runs_write ?_ ?_)
  · obtain ⟨s, hs⟩ := hpage
    exact ⟨s, List.mem_cons_of_mem _ hs⟩
  · rw [hfresh]
    exact h

omit [BoundedOrder K] [DecidableEq V] [Add V] [Inhabited K] [Inhabited V] in
theorem runs_splitInnerNode {n : BeInnerNode K V} {f : PageId × K → BeProg K V α}
    (hm : mem page = some (.inner n)) (h2 : 2 ≤ n.size)
    (hs : Keyed.KeysSorted Upsert.key n.upserts.toList)
    (h : Runs (handler R) (f (R.ids created, n.middleKey))
      ⟨Function.update (Function.update mem (R.ids created)
          (some (.inner (n.rightHalf (O.memory (R.ids created)))))) page (some (.inner n.leftHalf)),
        created + 1, header, (R.ids created, none) :: pins, [], kept⟩ Q) :
    Runs (handler R) ((splitInnerNode O page).bind f)
      ⟨mem, created, header, pins, recent, kept⟩ Q := by
  have hsize : n.size / 2 = n.size - ((n.size - 1) / 2 + 1) := by omega
  have hleft : n.size - n.size / 2 - 1 = (n.size - 1) / 2 := by omega
  have hcut : n.bufferCut ≤ n.upserts.size := upperBound_le _ _ _
  have hbuf : n.upserts.size - (n.upserts.size - n.bufferCut) = n.bufferCut := by omega
  have hrem := removeIf_buffer hs
  simp only [splitInnerNode, Prog.bind_def, Prog.pure_def, Prog.bind_assoc, Prog.ret_bind]
  refine runs_asInner hm (.inl hpage) (runs_check (fun _ => decide_eq_true h2) (runs_createPage ?_))
  refine runs_pinPage hpins (by simp [hlim]) (by simp [hfresh]) ⟨created, by omega, rfl⟩ ?_
  rw [BeInnerNode.middleKey] at hrem
  rw [hrem]
  refine runs_write ⟨_, List.mem_cons_self⟩ (runs_write ?_ ?_)
  · obtain ⟨s, hs⟩ := hpage
    exact ⟨s, List.mem_cons_of_mem _ hs⟩
  · dsimp only
    rw [hfresh, hleft, hbuf, hsize]
    exact h

end Splits

/-! ### Messages at a leaf -/

section Perform

variable {t : BeLeafNode K V} {u : Upsert K V}

/-- Does the message change the leaf? -/
def BeLeafNode.writes (t : BeLeafNode K V) (u : Upsert K V) : Bool :=
  match u.type with
  | .DELETE => t.Found u.key
  | .UPDATE => t.Found u.key
  | .INSERT => !(decide (t.Found u.key) && decide (t.values (t.index u.key) = u.value))
  | .INVALID => false

omit [BoundedOrder K] [Inhabited K] [Inhabited V] in
theorem perform_of_not_writes (h : t.writes u = false) : t.perform u = t := by
  unfold BeLeafNode.writes at h
  unfold BeLeafNode.perform
  cases hu : u.type with
  | DELETE =>
    simp only [hu, decide_eq_false_iff_not] at h
    simp only [if_neg h]
  | UPDATE =>
    simp only [hu, decide_eq_false_iff_not] at h
    simp only [if_neg h]
  | INSERT =>
    simp only [hu, Bool.not_eq_false', Bool.and_eq_true, decide_eq_true_eq] at h
    simp only [if_pos h.1, BeLeafNode.setValue]
    rw [← h.2, Function.update_eq_self]
  | INVALID => rfl

omit [BoundedOrder K] [Inhabited K] [Inhabited V] in
/-- The target leaf takes the message, and is released dirty if that changes it. -/
theorem runs_performLeafUpsert {Q : Bool → PageWorld (BeNode K V) Header → Prop}
    {s : Option (BeNode K V)} (hu : u.type ≠ .INVALID) (hm : mem page = some (.leaf t))
    (h : Q true ⟨Function.update mem page (some (.leaf (t.perform u))), created, header, [],
      page :: recent, kept ∧ (t.writes u = true ∨ mem page = s)⟩) :
    Runs (handler R) (performLeafUpsert u page) ⟨mem, created, header, [(page, s)], recent, kept⟩ Q := by
  -- the leaf is changed
  have hwrite : t.writes u = true → ∀ t', t.perform u = t' → Runs (handler R)
      ((PageProg.write page (.leaf t')).bind fun _ => (PageProg.unpinPage page true).bind
        fun _ => .ret true) ⟨mem, created, header, [(page, s)], recent, kept⟩ Q := by
    rintro hw t' rfl
    refine runs_write ⟨s, List.mem_singleton_self _⟩ (runs_unpinPage (s := s) (by simp) rfl (runs_ret ?_))
    simpa [hw] using h
  -- the leaf stays as it is
  have hkeep : t.writes u = false → Runs (handler R)
      ((PageProg.unpinPage page false).bind fun _ => .ret true)
        ⟨mem, created, header, [(page, s)], recent, kept⟩ Q := by
    intro hw
    refine runs_unpinPage (s := s) (by simp) rfl (runs_ret ?_)
    rw [perform_of_not_writes hw, ← hm, Function.update_eq_self] at h
    simpa [hw, hm] using h
  simp only [performLeafUpsert, Prog.bind_def, Prog.pure_def]
  refine runs_asLeaf hm (.inl ⟨s, by simp⟩) ?_
  have hfound : (lowerBound t.keys t.size u.key < t.size ∧
      t.keys (lowerBound t.keys t.size u.key) = u.key) = t.Found u.key := rfl
  cases hty : u.type with
  | DELETE =>
    simp only [hfound]
    by_cases hf : t.Found u.key
    · rw [if_pos hf]
      refine hwrite (by simp [BeLeafNode.writes, hty, hf]) _ ?_
      rw [BeLeafNode.perform, hty]
      exact if_pos hf
    · rw [if_neg hf]
      exact hkeep (by simp [BeLeafNode.writes, hty, hf])
  | UPDATE =>
    simp only [hfound]
    by_cases hf : t.Found u.key
    · rw [if_pos hf]
      refine hwrite (by simp [BeLeafNode.writes, hty, hf]) _ ?_
      rw [BeLeafNode.perform, hty]
      exact if_pos hf
    · rw [if_neg hf]
      exact hkeep (by simp [BeLeafNode.writes, hty, hf])
  | INSERT =>
    simp only [hfound]
    by_cases hf : t.Found u.key
    · rw [if_pos hf]
      by_cases hv : t.values (lowerBound t.keys t.size u.key) = u.value
      · rw [if_neg (not_not.mpr hv)]
        exact hkeep (by simp [BeLeafNode.writes, hty, hf, BeLeafNode.index, hv])
      · rw [if_pos hv]
        refine hwrite (by simp [BeLeafNode.writes, hty, hf, BeLeafNode.index, hv]) _ ?_
        rw [BeLeafNode.perform, hty]
        exact if_pos hf
    · rw [if_neg hf]
      refine hwrite (by simp [BeLeafNode.writes, hty, hf]) _ ?_
      rw [BeLeafNode.perform, hty]
      exact if_neg hf
  | INVALID => exact absurd hty hu

/-- The leaf a message for a split leaf goes to. -/
def targetOf (childPage : PageId) (splitResult : Option (K × PageId)) (key : K) : PageId :=
  match splitResult with
  | some (middleKey, rightPage) => if middleKey < key then rightPage else childPage
  | none => childPage

omit [BoundedOrder K] [DecidableEq V] [Inhabited K] [Inhabited V] in
/-- A message is applied to its leaf; the assert on the slot of a new key holds where the leaf is clear. -/
theorem runs_performMessage (hclear : R.asserts = true → u.type = .INSERT → t.Clear N u.key) {childPage : PageId}
    {splitResult : Option (K × PageId)} {Q : Unit → PageWorld (BeNode K V) Header → Prop}
    (hroom : (t.perform u).size ≤ N.LEAF_N)
    (hm : mem (targetOf childPage splitResult u.key) = some (.leaf t))
    (hp : ∃ s, (targetOf childPage splitResult u.key, s) ∈ pins)
    (h : Q () ⟨Function.update mem (targetOf childPage splitResult u.key) (some (.leaf (t.perform u))),
      created, header, pins, recent, kept⟩) :
    Runs (handler R) (performMessage N childPage splitResult u)
      ⟨mem, created, header, pins, recent, kept⟩ Q := by
  set target := targetOf childPage splitResult u.key with htarget
  have hwrite : ∀ t', t.perform u = t' → Runs (handler R) (PageProg.write target (.leaf t'))
      ⟨mem, created, header, pins, recent, kept⟩ Q := by
    rintro t' rfl
    have hr : Runs (handler R) ((PageProg.write target (.leaf (t.perform u))).bind .ret)
        ⟨mem, created, header, pins, recent, kept⟩ Q := runs_write hp (runs_ret h)
    rwa [Prog.bind_ret] at hr
  have hkeep : t.perform u = t → Runs (handler R) (Prog.ret ())
      ⟨mem, created, header, pins, recent, kept⟩ Q := by
    intro e
    rw [e, ← hm, Function.update_eq_self] at h
    exact runs_ret h
  simp only [performMessage, Prog.bind_def, Prog.pure_def]
  show Runs (handler R) ((asLeaf target).bind _) _ _
  refine runs_asLeaf hm (.inl hp) ?_
  have hfound : (lowerBound t.keys t.size u.key < t.size ∧
      t.keys (lowerBound t.keys t.size u.key) = u.key) = t.Found u.key := rfl
  cases hty : u.type with
  | DELETE =>
    simp only [hfound]
    by_cases hf : t.Found u.key
    · rw [if_pos hf]
      exact hwrite _ (by rw [BeLeafNode.perform, hty]; exact if_pos hf)
    · rw [if_neg hf]
      exact hkeep (by rw [BeLeafNode.perform, hty]; exact if_neg hf)
  | UPDATE =>
    simp only [hfound]
    by_cases hf : t.Found u.key
    · rw [if_pos hf]
      exact hwrite _ (by rw [BeLeafNode.perform, hty]; exact if_pos hf)
    · rw [if_neg hf]
      exact hkeep (by rw [BeLeafNode.perform, hty]; exact if_neg hf)
  | INSERT =>
    simp only [hfound]
    by_cases hf : t.Found u.key
    · rw [if_pos hf]
      exact hwrite _ (by rw [BeLeafNode.perform, hty]; exact if_pos hf)
    · have hperform : t.perform u = t.insertPair (t.index u.key) u.key u.value := by
        rw [BeLeafNode.perform, hty]
        exact if_neg hf
      have hsize : t.size < N.LEAF_N := by
        rw [hperform] at hroom
        exact hroom
      have hindex : lowerBound t.keys t.size u.key < N.LEAF_N := (lowerBound_le _ _ _).trans_lt hsize
      rw [if_neg hf]
      refine runs_check (fun _ => decide_eq_true hsize) (runs_check (fun hA => ?_) (hwrite _ hperform))
      rw [decide_eq_true hindex, Bool.true_and]
      exact decide_eq_true ((hclear hA hty).slot_ne hf hsize)
  | INVALID => exact hkeep (by rw [BeLeafNode.perform, hty])

end Perform

end BEpsilon.BeTree
