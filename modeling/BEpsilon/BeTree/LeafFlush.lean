import BEpsilon.Lib.Always
import BEpsilon.BeTree.Content
import BEpsilon.BeTree.LeafSlots
import BEpsilon.BeTree.VisitLeaf

/-!
# BEpsilon.BeTree.LeafFlush — a leaf and the messages that are flushed into it

A flush visits a leaf twice: first it estimates the size that the leaf will have and splits it at the
median key, and once the parent has been released it applies the messages one by one.  Whatever the leaf
and its messages, and whatever happens to other pages in between, the leaf or its two halves hold the old
pairs with the messages applied, and no leaf exceeds its capacity on the way.
-/

namespace BEpsilon.BeTree

open Slots Keyed PageWorld

variable {K V : Type} [LinearOrder K]

/-! ### The parts of a leaf -/

section Parts

variable [Add V] {N : NodeSizes} {t l : BeLeafNode K V} {q p : PageId} {split : Option (K × PageId)}
  {done rest us : List (Upsert K V)} {u : Upsert K V} {mem mem' : PageId → Option (BeNode K V)}

theorem applyMessages_concat (k : K) (o : Option V) :
    applyMessages k (done ++ [u]) o =
      if u.key = k then u.effect (applyMessages k done o) else applyMessages k done o := by
  simp only [applyMessages, List.filter_append, List.foldl_append, List.filter_cons, List.filter_nil,
    decide_eq_true_eq]
  split <;> rfl

/-- The leaf `l` of page `p` holds its part of what `t` holds after the messages `done`, and has room for
those of `rest` that go to it. -/
structure LeafPart (N : NodeSizes) (t : BeLeafNode K V) (q : PageId) (split : Option (K × PageId))
    (done rest : List (Upsert K V)) (p : PageId) (l : BeLeafNode K V) : Prop where
  sorted : Sorted l.keys l.size
  fits : LeafFits N l (rest.filter fun u => targetOf q split u.key = p)
  keys : ∀ x ∈ l.keySet, targetOf q split x = p
  get : ∀ k, targetOf q split k = p → l.get k = applyMessages k done (t.get k)

namespace LeafPart

/-- The part after a message for it. -/
theorem perform (h : LeafPart N t q split done (u :: rest) p l) (hu : targetOf q split u.key = p) :
    LeafPart N t q split (done ++ [u]) rest p (l.perform u) := by
  have hspec := perform_spec h.sorted u
  have hfits := h.fits
  rw [List.filter_cons, if_pos (by simpa using hu)] at hfits
  refine ⟨hspec.sorted, hfits.2, fun x hx => ?_, fun k hk => ?_⟩
  · rcases hspec.keys x hx with rfl | hx
    · exact hu
    · exact h.keys x hx
  · rw [hspec.get, applyMessages_concat]
    by_cases e : k = u.key
    · rw [if_pos e, if_pos e.symm, e, ← h.get u.key hu]
    · rw [if_neg e, if_neg (Ne.symm e), h.get k hk]

/-- The part after a message for another page. -/
theorem other (h : LeafPart N t q split done (u :: rest) p l) (hu : targetOf q split u.key ≠ p) :
    LeafPart N t q split (done ++ [u]) rest p l := by
  have hfits := h.fits
  rw [List.filter_cons, if_neg (by simpa using hu)] at hfits
  refine ⟨h.sorted, hfits, h.keys, fun k hk => ?_⟩
  have hne : u.key ≠ k := by
    rintro rfl
    exact hu hk
  rw [applyMessages_concat, if_neg hne, h.get k hk]

theorem ok (h : LeafPart N t q split done rest p l) : LeafOk N l := ⟨h.sorted, h.fits.size_le⟩

theorem get_eq_none (h : LeafPart N t q split done rest p l) {k : K} (hk : targetOf q split k ≠ p) :
    l.get k = none :=
  get_of_not_found h.sorted fun hf => hk (h.keys k ⟨_, hf.1, hf.2⟩)

/-- The part says about a key what `t` says after the messages, if the key is one of the part. -/
theorem get_eq_some_iff (h : LeafPart N t q split done rest p l) {k : K} {value : V} :
    l.get k = some value ↔ targetOf q split k = p ∧ applyMessages k done (t.get k) = some value := by
  by_cases hk : targetOf q split k = p
  · rw [h.get k hk]
    exact ⟨fun e => ⟨hk, e⟩, fun e => e.2⟩
  · rw [h.get_eq_none hk]
    exact ⟨fun e => by simp at e, fun e => absurd e.1 hk⟩

end LeafPart

/-- The pages of a leaf child hold the parts of `t` after the messages `done`, with room for `rest`. -/
def PartsAre (N : NodeSizes) (t : BeLeafNode K V) (q : PageId) (split : Option (K × PageId))
    (done rest : List (Upsert K V)) (mem : PageId → Option (BeNode K V)) : Prop :=
  ∀ p ∈ LeafJob.pages (q, split, rest), ∃ l, mem p = some (.leaf l) ∧ LeafPart N t q split done rest p l

namespace PartsAre

theorem congr (h : PartsAre N t q split done rest mem)
    (hm : ∀ p ∈ LeafJob.pages (q, split, rest), mem' p = mem p) : PartsAre N t q split done rest mem' := by
  intro p hp
  rw [hm p hp]
  exact h p hp

/-- The leaf that the next message goes to, with room for it. -/
theorem target (h : PartsAre N t q split done (u :: rest) mem) :
    ∃ l, mem (targetOf q split u.key) = some (.leaf l) ∧ l.size ≤ N.LEAF_N ∧
      (l.perform u).size ≤ N.LEAF_N := by
  obtain ⟨l, hl, hpart⟩ := h _ (targetOf_mem (q, split, u :: rest) u.key)
  exact ⟨l, hl, hpart.ok.size_le, (hpart.perform rfl).ok.size_le⟩

theorem perform (h : PartsAre N t q split done (u :: rest) mem)
    (hl : mem (targetOf q split u.key) = some (.leaf l)) :
    PartsAre N t q split (done ++ [u]) rest
      (Function.update mem (targetOf q split u.key) (some (.leaf (l.perform u)))) := by
  intro p hp
  obtain ⟨l', hl', hpart⟩ := h p hp
  by_cases e : p = targetOf q split u.key
  · subst e
    obtain rfl : l = l' := by simpa using hl.symm.trans hl'
    exact ⟨_, Function.update_self _ _ _, hpart.perform rfl⟩
  · exact ⟨l', by rw [Function.update_of_ne e, hl'], hpart.other (Ne.symm e)⟩

/-- A leaf that is not split is the only part. -/
theorem whole (ht : Sorted t.keys t.size) (hfits : LeafFits N t us) (hq : mem q = some (.leaf t)) :
    PartsAre N t q none [] us mem := by
  intro p hp
  obtain rfl := List.mem_singleton.mp hp
  refine ⟨t, hq, ht, ?_, fun _ _ => rfl, fun _ _ => rfl⟩
  rwa [List.filter_eq_self.mpr fun _ _ => by simp [targetOf]]

/-- The halves of a leaf that is split at the median key are the parts. -/
theorem halves [Inhabited K] [Inhabited V] (L : Leftover K V) (ht : LeafOk N t) {mid : K} {r : PageId} {x y : ℕ}
    (hcut : MedianCut t.keys t.size (keyAt us) us.length mid x y) (hus : us.length ≤ N.MAX_FLUSH_SIZE)
    (hqr : q ≠ r) (hl : mem q = some (.leaf (t.leftHalf mid))) (hr : mem r = some (.leaf (t.rightHalf L mid))) :
    PartsAre N t q (some (mid, r)) [] us mem := by
  have hjob : JobOk N mem (Routed.splitPg (fun _ _ => q) 0 q r mid) (q, some (mid, r), us) :=
    jobOk_halves ht hcut hus hqr hl hr fun _ _ => rfl
  have hh := halves_of_cut ht.sorted L mid
  have htarget : ∀ k : K, targetOf q (some (mid, r)) k = if mid < k then r else q := fun _ => rfl
  intro p hp
  obtain ⟨l, hm, hfits⟩ := hjob.fits p hp
  refine ⟨l, hm, ?_⟩
  rcases List.mem_cons.mp hp with rfl | hp
  · obtain rfl : t.leftHalf mid = l := by simpa using hl.symm.trans hm
    refine ⟨hh.left_sorted, hfits, fun z hz => ?_, fun k hk => ?_⟩
    · rw [htarget, if_neg (not_lt.mpr (hh.left_keys z hz).2)]
    · refine hh.left_get k (not_lt.mp fun hlt => hqr ?_)
      rw [htarget, if_pos hlt] at hk
      exact hk.symm
  · obtain rfl : p = r := List.mem_singleton.mp hp
    obtain rfl : t.rightHalf L mid = l := by simpa using hr.symm.trans hm
    refine ⟨hh.right_sorted, hfits, fun z hz => ?_, fun k hk => ?_⟩
    · rw [htarget, if_pos (hh.right_keys z hz).2]
    · refine hh.right_get k (not_le.mp fun hle => hqr ?_)
      rwa [htarget, if_neg (not_lt.mpr hle)] at hk

end PartsAre

/-- The leaf `q`, or the two halves that the middle key separates, hold the pairs of `t` with the messages
`us` applied, and no others. -/
def Flushed (N : NodeSizes) (t : BeLeafNode K V) (us : List (Upsert K V)) (q : PageId)
    (split : Option (K × PageId)) (mem : PageId → Option (BeNode K V)) : Prop :=
  match split with
  | none => ∃ l, mem q = some (.leaf l) ∧ LeafOk N l ∧ ∀ k, l.get k = applyMessages k us (t.get k)
  | some (middleKey, rightPage) =>
    ∃ l r, mem q = some (.leaf l) ∧ mem rightPage = some (.leaf r) ∧ LeafOk N l ∧ LeafOk N r ∧
      (∀ x ∈ l.keySet, x ≤ middleKey) ∧ (∀ x ∈ r.keySet, middleKey < x) ∧
      ∀ k value, l.get k = some value ∨ r.get k = some value ↔ applyMessages k us (t.get k) = some value

theorem PartsAre.flushed (h : PartsAre N t q split us rest mem) (hne : ∀ s ∈ split, s.2 ≠ q) :
    Flushed N t us q split mem := by
  cases split with
  | none =>
    obtain ⟨l, hl, hpart⟩ := h q List.mem_cons_self
    exact ⟨l, hl, hpart.ok, fun k => hpart.get k rfl⟩
  | some s =>
    obtain ⟨mid, r⟩ := s
    have hqr : r ≠ q := hne _ rfl
    have htarget : ∀ k : K, targetOf q (some (mid, r)) k = if mid < k then r else q := fun _ => rfl
    obtain ⟨l, hl, hleft⟩ := h q List.mem_cons_self
    obtain ⟨l', hl', hright⟩ := h r (List.mem_cons_of_mem _ (List.mem_singleton_self _))
    refine ⟨l, l', hl, hl', hleft.ok, hright.ok, fun x hx => ?_, fun x hx => ?_, fun k value => ?_⟩
    · have hx := hleft.keys x hx
      rw [htarget] at hx
      exact not_lt.mp fun hlt => hqr (by rwa [if_pos hlt] at hx)
    · have hx := hright.keys x hx
      rw [htarget] at hx
      exact not_le.mp fun hle => hqr (by rwa [if_neg (not_lt.mpr hle), eq_comm] at hx)
    · rw [hleft.get_eq_some_iff, hright.get_eq_some_iff, htarget]
      by_cases hlt : mid < k
      · simp [hlt, hqr]
      · simp [hlt, hqr.symm]

end Parts

/-! ### Leaves that never exceed their capacity -/

section Sizes

variable {N : NodeSizes} {R : PageRules} {w w' : PageWorld (BeNode K V) Header} {β : Type}

/-- No leaf is larger than its capacity. -/
def LeavesFit (N : NodeSizes) (mem : PageId → Option (BeNode K V)) : Prop :=
  ∀ id l, mem id = some (.leaf l) → l.size ≤ N.LEAF_N

/-- A command stores no leaf that is too large. -/
def FitWrites (N : NodeSizes) : (β : Type) → PageCmd (BeNode K V) Header β → PageWorld (BeNode K V) Header → Prop
  | _, .write _ (.leaf l), _ => l.size ≤ N.LEAF_N
  | _, _, _ => True

omit [LinearOrder K] in
/-- Only `write` changes a page. -/
theorem mem_of_step {c : PageCmd (BeNode K V) Header β} {b : β} (h : handler R β c w = .ok b w') :
    w'.mem = match c with
      | .write id d => Function.update w.mem id (some d)
      | _ => w.mem := by
  cases c <;> simp only [handler] at h <;> (try split at h) <;> (try split at h) <;> (try split at h) <;>
    cases h <;> rfl

omit [LinearOrder K] in
theorem read_of_step {id : PageId} {d : BeNode K V} (h : handler R _ (.read id) w = .ok d w') :
    w.mem id = some d := by
  simp only [handler] at h
  split at h
  next d' hd =>
    split at h
    · cases h
      exact hd
    · cases h
  next => cases h

omit [LinearOrder K] in
/-- A program that stores no leaf that is too large makes none. -/
theorem leavesFit_of_always {α : Type} {p q : BeProg K V α} {Q : α → PageWorld (BeNode K V) Header → Prop}
    (hp : Always (handler R).steps (FitWrites N) p w Q) (hw : LeavesFit N w.mem) {n : ℕ}
    (hr : Comes (handler R).steps n p w q w') : LeavesFit N w'.mem := by
  refine hp.holds (J := fun v => LeavesFit N v.mem) ?_ hw hr
  intro β c v b v' hv hc hs
  rw [mem_of_step hs]
  cases c with
  | write id d =>
    intro id' l hl
    dsimp only at hl
    by_cases e : id' = id
    · subst e
      rw [Function.update_self] at hl
      cases hl
      exact hc
    · rw [Function.update_of_ne e] at hl
      exact hv id' l hl
  | _ => exact hv

end Sizes

/-! ### The routines -/

section Messages

variable [BoundedOrder K] [DecidableEq V] [Add V] [Inhabited K] [Inhabited V]
variable {R : PageRules} {N : NodeSizes} {t l : BeLeafNode K V} {q : PageId} {split : Option (K × PageId)}
  {done us rest : List (Upsert K V)} {u : Upsert K V} {w : PageWorld (BeNode K V) Header}
  {mem : PageId → Option (BeNode K V)} {created : ℕ} {header : Header}
  {pins : List (PageId × Option (BeNode K V))} {recent : List PageId} {kept : Prop} {others : List PageId}

omit [BoundedOrder K] [DecidableEq V] [Inhabited K] [Inhabited V] in
/-- A message stores the leaf after it or nothing. -/
theorem always_performMessage (hm : w.mem (targetOf q split u.key) = some (.leaf l))
    (hroom : (l.perform u).size ≤ N.LEAF_N) :
    Always (handler R).steps (FitWrites N) (performMessage N q split u) w fun _ w' =>
      w'.mem = Function.update w.mem (targetOf q split u.key) (some (.leaf (l.perform u))) := by
  set target := targetOf q split u.key with htarget
  have hwrite : ∀ l' v, l.perform u = l' → v.mem = w.mem →
      Always (handler R).steps (FitWrites N) (PageProg.write target (.leaf l')) v fun _ w' =>
        w'.mem = Function.update w.mem target (some (.leaf (l.perform u))) := by
    rintro l' v rfl hv
    refine always_call hroom fun _ v' hs => always_ret ?_
    rw [mem_of_step hs, hv]
  have hkeep : ∀ v, l.perform u = l → v.mem = w.mem →
      Always (handler R).steps (FitWrites N) (Prog.ret ()) v fun _ w' =>
        w'.mem = Function.update w.mem target (some (.leaf (l.perform u))) := by
    intro v e hv
    refine always_ret ?_
    rw [e, ← hm, Function.update_eq_self, hv]
  have hfound : (lowerBound l.keys l.size u.key < l.size ∧
      l.keys (lowerBound l.keys l.size u.key) = u.key) = l.Found u.key := rfl
  simp only [performMessage, Prog.bind_def, Prog.pure_def]
  show Always _ _ ((asLeaf target).bind _) _ _
  refine always_call trivial fun d v hs => ?_
  have hv : v.mem = w.mem := mem_of_step hs
  obtain rfl : d = .leaf l := by simpa [hm] using (read_of_step hs).symm
  dsimp only [Prog.pure_def, Prog.ret_bind]
  cases hty : u.type with
  | DELETE =>
    simp only [hfound]
    by_cases hf : l.Found u.key
    · rw [if_pos hf]
      exact hwrite _ v (by rw [BeLeafNode.perform, hty]; exact if_pos hf) hv
    · rw [if_neg hf]
      exact hkeep v (by rw [BeLeafNode.perform, hty]; exact if_neg hf) hv
  | UPDATE =>
    simp only [hfound]
    by_cases hf : l.Found u.key
    · rw [if_pos hf]
      exact hwrite _ v (by rw [BeLeafNode.perform, hty]; exact if_pos hf) hv
    · rw [if_neg hf]
      exact hkeep v (by rw [BeLeafNode.perform, hty]; exact if_neg hf) hv
  | INSERT =>
    simp only [hfound]
    by_cases hf : l.Found u.key
    · rw [if_pos hf]
      exact hwrite _ v (by rw [BeLeafNode.perform, hty]; exact if_pos hf) hv
    · rw [if_neg hf]
      refine always_call trivial fun _ v₁ hs₁ => always_call trivial fun _ v₂ hs₂ => ?_
      refine hwrite _ v₂ (by rw [BeLeafNode.perform, hty]; exact if_neg hf) ?_
      rw [mem_of_step hs₂, mem_of_step hs₁, hv]
  | INVALID => exact hkeep v (by rw [BeLeafNode.perform, hty]) hv

omit [BoundedOrder K] [DecidableEq V] [Inhabited K] [Inhabited V] in
theorem always_handleLeafMessages (h : PartsAre N t q split [] us w.mem) :
    Always (handler R).steps (FitWrites N) (handleLeafMessages N (q, split, us)) w fun _ _ => True := by
  simp only [handleLeafMessages, Prog.bind_def, Prog.pure_def]
  refine always_bind ((always_forFold (fun as _ v => ∃ done, PartsAre N t q split done as v.mem) ?_ ⟨_, h⟩).mono ?_)
  · rintro u as - v ⟨done, hv⟩
    obtain ⟨l, hl, -, hroom⟩ := hv.target
    refine (always_performMessage hl hroom).mono fun _ v' e => ⟨done ++ [u], ?_⟩
    rw [e]
    exact hv.perform hl
  · intro _ v _
    refine always_call trivial fun _ v' _ => ?_
    cases split with
    | none => exact always_ret trivial
    | some s => exact always_call trivial fun _ _ _ => always_ret trivial

omit [BoundedOrder K] [DecidableEq V] [Inhabited K] [Inhabited V] in
/-- The messages `us` are applied one after the other, and there is room for `rest`. -/
theorem runs_performMessages (hS : R.asserts = false)
    (hpin : ∀ p ∈ LeafJob.pages (q, split, us), ∃ s, (p, s) ∈ pins)
    (h : PartsAre N t q split [] (us ++ rest) mem) :
    Runs (handler R) (Prog.forFold (fun _ upsert => performMessage N q split upsert) us ())
      ⟨mem, created, header, pins, recent, kept⟩ fun _ w' =>
        ∃ mem', w' = ⟨mem', created, header, pins, recent, kept⟩ ∧ PartsAre N t q split us rest mem' := by
  refine (runs_forFold (fun as _ v => ∃ done mem', done ++ as = us ∧
    v = ⟨mem', created, header, pins, recent, kept⟩ ∧ PartsAre N t q split done (as ++ rest) mem') ?_
    ⟨[], mem, rfl, rfl, h⟩).mono ?_
  · rintro u as - _ ⟨done, mem', he, rfl, hv⟩
    obtain ⟨l, hl, -, hroom⟩ := hv.target
    refine runs_performMessage (fun h => by simp [hS] at h) hroom hl (hpin _ (targetOf_mem (q, split, us) u.key)) ?_
    exact ⟨done ++ [u], _, by rw [← he, List.append_assoc]; rfl, rfl, hv.perform hl⟩
  · rintro - _ ⟨done, mem', he, rfl, hv⟩
    rw [List.append_nil] at he
    subst he
    exact ⟨mem', rfl, hv⟩

omit [BoundedOrder K] [DecidableEq V] [Inhabited K] [Inhabited V] in
/-- The messages of a leaf child are applied, and its pages are released. -/
theorem runs_handleLeafMessages (hS : R.asserts = false) (hne : ∀ s ∈ split, s.2 ≠ q)
    (hp : PinsAre pins (LeafJob.pages (q, split, us) ++ others)) (h : PartsAre N t q split [] us mem) :
    Runs (handler R) (handleLeafMessages N (q, split, us)) ⟨mem, created, header, pins, recent, kept⟩
      fun _ w' => Flushed N t us q split w'.mem ∧ PinsAre w'.pins others := by
  have hpin : ∀ p ∈ LeafJob.pages (q, split, us), ∃ s, (p, s) ∈ pins := fun p hpp =>
    hp.pinned (List.mem_append_left _ hpp)
  refine runs_bind ((runs_performMessages hS hpin (by rwa [List.append_nil])).mono ?_)
  rintro - _ ⟨mem', rfl, hv⟩
  have hmem : ∀ p ∈ LeafJob.pages (q, split, us), (mem' p).isSome := by
    intro p hpp
    obtain ⟨l, hl, -⟩ := hv p hpp
    rw [hl]
    rfl
  refine runs_release hp (hmem _ List.mem_cons_self) fun pins' hp' => ?_
  cases split with
  | none => exact runs_ret ⟨hv.flushed hne, hp'⟩
  | some s =>
    have hr : Runs (handler R) ((PageProg.unpinPage s.2 true).bind .ret)
        ⟨mem', created, header, pins', q :: recent, kept⟩ fun _ w' =>
        Flushed N t us q (some s) w'.mem ∧ PinsAre w'.pins others := by
      refine runs_release hp' (hmem _ ?_) fun pins'' hp'' => runs_ret ⟨hv.flushed hne, hp''⟩
      exact List.mem_cons_of_mem _ (List.mem_singleton_self _)
    rwa [Prog.bind_ret] at hr

end Messages

/-! ### The visit of a leaf child -/

/-- A leaf that may be pinned, and split onto a new page. -/
structure LeafChild (R : PageRules) (w : PageWorld (BeNode K V) Header) (q : PageId) (t : BeLeafNode K V) :
    Prop where
  leaf : w.mem q = some (.leaf t)
  known : ∃ i < w.created, R.ids i = q
  free : ∀ p ∈ w.pins, p.1 ≠ q
  fresh : w.mem (R.ids w.created) = none
  fresh_free : ∀ p ∈ w.pins, p.1 ≠ R.ids w.created

section Visit

variable [BoundedOrder K] [DecidableEq V] [Add V] [Inhabited K] [Inhabited V]
variable {R : PageRules} {N : NodeSizes} {O : Unspecified K V} {n : BeInnerNode K V} {t : BeLeafNode K V} {i : ℕ}
  {us : List (Upsert K V)} {tr : Traversal K V} {w : PageWorld (BeNode K V) Header}

omit [BoundedOrder K] [DecidableEq V] [Add V] [Inhabited K] [Inhabited V] [LinearOrder K] in
theorem LeafChild.page_ne {q : PageId} (h : LeafChild R w q t) : R.ids w.created ≠ q := by
  intro e
  have hfresh := h.fresh
  rw [e, h.leaf] at hfresh
  cases hfresh

/-- How a leaf child is left by its visit: its page and the new one of the right half, if it was split, are
pinned and hold the parts of the leaf; the messages and the pivot are kept for later. -/
structure Visited (N : NodeSizes) (i : ℕ) (us : List (Upsert K V)) (t : BeLeafNode K V) (q : PageId)
    (split : Option (K × PageId)) (tr : Traversal K V) (pinned : List PageId) (tr' : Traversal K V)
    (w' : PageWorld (BeNode K V) Header) : Prop where
  collected : tr' = { tr with
    newPivots := tr.newPivots ++ split.toList.map fun s => (i, s)
    leafMessages := tr.leafMessages ++ [(q, split, us)] }
  pins : PinsAre w'.pins (LeafJob.pages (q, split, us) ++ pinned)
  parts : PartsAre N t q split [] us w'.mem

omit [DecidableEq V] in
/-- A leaf child that may not have room for its messages is split at the median key. -/
theorem runs_handleChild_leaf (tr : Traversal K V) (hA : R.asserts = false) (hlim : R.limit = none) (ht : LeafOk N t)
    (hus : KeysSorted Upsert.key us) (hlen : us.length ≤ N.MAX_FLUSH_SIZE)
    (hw : LeafChild R w (n.children i) t) :
    ∃ split, (split = none → LeafFits N t us) ∧ (∀ s ∈ split, 2 ≤ t.size ∧ s.2 ≠ n.children i) ∧
      Runs (handler R) (handleChild N O n tr (i, us)) w
        (Visited N i us t (n.children i) split tr (w.pins.map Prod.fst)) := by
  obtain ⟨mem, created, header, pins, recent, kept⟩ := w
  have hqr := hw.page_ne
  obtain ⟨hm, hknown, hfree, hfresh, hfreshp⟩ := hw
  dsimp only at hm hknown hfree hfresh hfreshp hqr
  have hchild : ∀ Q : Traversal K V → PageWorld (BeNode K V) Header → Prop,
      Runs (handler R) (handleLeafChild N O i us (n.children i) t tr)
        ⟨mem, created, header, (n.children i, mem (n.children i)) :: pins, [], kept⟩ Q →
      Runs (handler R) (handleChild N O n tr (i, us)) ⟨mem, created, header, pins, recent, kept⟩ Q := by
    intro Q hQ
    simp only [handleChild, Prog.bind_def]
    refine runs_check (fun h => by simp [hA] at h) (runs_pinPage hfree (by simp [hlim]) ?_ hknown ?_)
    · rw [hm]
      rfl
    · exact runs_read hm (.inl ⟨_, List.mem_cons_self⟩) hQ
  by_cases hneed : needToSplit N t t.size [] us = true
  · have hlt := lt_of_needToSplit hneed
    have hMAX : us.length ≤ N.LEAF_N - 1 := hlen
    have hsize := ht.size_le
    obtain ⟨mid, x, y, hmid, hcut⟩ := findMedianKey_spec ht.sorted.weakly
      (sorted_keyAt hus).weakly (by omega)
    refine ⟨some (mid, R.ids created), by simp, ?_, hchild _ ?_⟩
    · intro s hs
      cases hs
      exact ⟨by omega, hqr⟩
    · have hret : medianKeyOf t us = Prog.ret mid := by
        have he : findMedianKey t.keys t.size (fun i => (us.getD i default).key) us.length = some mid := hmid
        rw [medianKeyOf, he]
        rfl
      simp only [handleLeafChild, Prog.bind_def, Prog.pure_def, if_pos hneed, hret, Prog.ret_bind]
      refine runs_splitLeafNode ⟨_, List.mem_cons_self⟩ hfresh ?_ hlim hm (by omega) (runs_ret ?_)
      · intro p hp
        rcases List.mem_cons.mp hp with rfl | hp
        · exact hqr.symm
        · exact hfreshp p hp
      · refine ⟨rfl, List.Perm.swap _ _ _, PartsAre.halves (O.memory (R.ids created)) ht hcut hlen hqr.symm ?_ ?_⟩
        · exact Function.update_self _ _ _
        · dsimp only
          rw [Function.update_of_ne hqr, Function.update_self]
  · have hneed' : needToSplit N t t.size [] us = false := by simpa using hneed
    have hfits := fits_of_needToSplit ht.sorted ht.size_le hus hneed'
    refine ⟨none, fun _ => hfits, by simp, hchild _ ?_⟩
    simp only [handleLeafChild, Prog.pure_def, if_neg hneed]
    refine runs_ret ⟨?_, List.Perm.refl _, PartsAre.whole ht.sorted hfits hm⟩
    simp

omit [DecidableEq V] in
/-- The visit stores no leaf that is larger than the one it splits. -/
theorem always_handleChild_leaf (hm : w.mem (n.children i) = some (.leaf t)) (hle : t.size ≤ N.LEAF_N) :
    Always (handler R).steps (FitWrites N) (handleChild N O n tr (i, us)) w fun _ _ => True := by
  simp only [handleChild, Prog.bind_def]
  refine always_call trivial fun _ w₁ h₁ => always_call trivial fun _ w₂ h₂ => ?_
  have hm₂ : w₂.mem = w.mem := (mem_of_step h₂).trans (mem_of_step h₁)
  refine always_call trivial fun d w₃ h₃ => ?_
  obtain rfl : d = .leaf t := by simpa [hm₂, hm] using (read_of_step h₃).symm
  have hm₃ : w₃.mem = w.mem := (mem_of_step h₃).trans hm₂
  dsimp only [Prog.ret_bind]
  simp only [handleLeafChild, Prog.bind_def, Prog.pure_def]
  split
  next hneed =>
    cases hmed : findMedianKey t.keys t.size (fun i => (us.getD i default).key) us.length with
    | none =>
      simp only [medianKeyOf, hmed]
      exact always_call trivial fun b => b.elim
    | some mid =>
      simp only [medianKeyOf, hmed, Prog.pure_def, Prog.ret_bind, splitLeafNode, Prog.bind_def,
        Prog.bind_assoc]
      refine always_call trivial fun d' w₄ h₄ => ?_
      obtain rfl : d' = .leaf t := by simpa [hm₃, hm] using (read_of_step h₄).symm
      dsimp only [Prog.pure_def, Prog.ret_bind]
      refine always_call trivial fun _ w₅ h₅ => always_call trivial fun _ w₆ h₆ =>
        always_call trivial fun _ w₇ h₇ => ?_
      refine always_call ?_ fun _ w₈ h₈ => always_call ?_ fun _ w₉ h₉ => always_ret trivial
      · exact (Nat.sub_le _ _).trans hle
      · exact (Nat.sub_le _ _).trans hle
  next hneed => exact always_ret trivial

omit [DecidableEq V] [Add V] in
/-- The slots that the visit of a leaf child looks at are slots of their arrays. -/
structure VisitSlots [Inhabited K] [Inhabited V] (N : NodeSizes) (t : BeLeafNode K V) (us : List (Upsert K V)) :
    Prop where
  estimate : ∀ u ∈ us, ∀ s ∈ t.estimateSlots u, s < N.LEAF_N
  median_keys : ∀ s ∈ (medianSlots t.keys t.size (keyAt us) us.length).1, s < N.LEAF_N
  median_messages : ∀ s ∈ (medianSlots t.keys t.size (keyAt us) us.length).2, s < us.length
  split_from : ∀ mid, ∀ s ∈ (t.splitSlots mid).1, s < N.LEAF_N
  split_to : ∀ mid, ∀ s ∈ (t.splitSlots mid).2, s < N.LEAF_N

omit [DecidableEq V] [Add V] in
theorem visitSlots_of_size_le (hle : t.size ≤ N.LEAF_N) : VisitSlots N t us where
  estimate _ _ _ hs := (lt_of_mem_estimateSlots hs).trans_le hle
  median_keys s hs := (medianSlots_lt.1 s hs).trans_le hle
  median_messages s hs := medianSlots_lt.2 s hs
  split_from _ s hs := (splitSlots_lt.1 s hs).trans_le hle
  split_to _ s hs := (splitSlots_lt.2 s hs).trans_le hle

omit [DecidableEq V] in
/-- A leaf with sorted keys and sorted messages for it, at most `LEAF_N - 1`.  Its visit splits it, if it has
two keys, or it has room for all messages; and whenever the messages are applied, with the pages as the visit
left them, the leaf or its two halves end with the old pairs and the messages applied to them.  All slots that
are looked at exist, and no leaf exceeds its capacity at any step. -/
theorem leafChild_flush (R : PageRules) (N : NodeSizes) (O : Unspecified K V) (n : BeInnerNode K V) (i : ℕ)
    (t : BeLeafNode K V) (us : List (Upsert K V)) (tr : Traversal K V) (w : PageWorld (BeNode K V) Header)
    (ht : LeafOk N t) (hus : KeysSorted Upsert.key us) (hlen : us.length ≤ N.LEAF_N - 1)
    (hw : LeafChild R w (n.children i) t) :
    VisitSlots N t us ∧
    (LeavesFit N w.mem → ∀ k p v, Comes (handler R).steps k (handleChild N O n tr (i, us)) w p v →
      LeavesFit N v.mem) ∧
    ∃ split, (split = none → LeafFits N t us) ∧ (split.isSome → 2 ≤ t.size) ∧
      Concludes R (handleChild N O n tr (i, us)) w fun tr' w' =>
        tr' = { tr with
          newPivots := tr.newPivots ++ split.toList.map fun s => (i, s)
          leafMessages := tr.leafMessages ++ [(n.children i, split, us)] } ∧
        PinsAre w'.pins (LeafJob.pages (n.children i, split, us) ++ w.pins.map Prod.fst) ∧
        ∀ v others, PinsAre v.pins (LeafJob.pages (n.children i, split, us) ++ others) →
          (∀ p ∈ LeafJob.pages (n.children i, split, us), v.mem p = w'.mem p) →
          (LeavesFit N v.mem → ∀ k p v', Comes (handler R).steps k
            (handleLeafMessages N (n.children i, split, us)) v p v' → LeavesFit N v'.mem) ∧
          (∀ done u rest, us = done ++ u :: rest →
            Concludes R (Prog.forFold (fun _ upsert => performMessage N (n.children i) split upsert) done ()) v
              fun _ v' => ∃ l, v'.mem (targetOf (n.children i) split u.key) = some (.leaf l) ∧
                ∀ s ∈ l.performSlots u, s < N.LEAF_N) ∧
          Concludes R (handleLeafMessages N (n.children i, split, us)) v fun _ v' =>
            Flushed N t us (n.children i) split v'.mem ∧ PinsAre v'.pins others := by
  refine ⟨visitSlots_of_size_le ht.size_le, ?_, ?_⟩
  · intro hfit k p v hr
    exact leavesFit_of_always (always_handleChild_leaf hw.leaf ht.size_le) hfit hr
  obtain ⟨split, hnone, hsome, hgoes⟩ := runs_handleChild_leaf (R := R.lenient) (O := O)
    tr rfl rfl ht hus hlen ⟨hw.leaf, hw.known, hw.free, hw.fresh, hw.fresh_free⟩
  refine ⟨split, hnone, ?_, ?_⟩
  · intro hs
    obtain ⟨s, rfl⟩ := Option.isSome_iff_exists.mp hs
    exact (hsome s rfl).1
  refine (hgoes.mono ?_).concludes
  intro tr' w' hvis
  refine ⟨hvis.collected, hvis.pins, ?_⟩
  intro v others hp hm
  have hparts : PartsAre N t (n.children i) split [] us v.mem := hvis.parts.congr hm
  refine ⟨?_, ?_, ?_⟩
  · intro hfit k p v' hr
    exact leavesFit_of_always (always_handleLeafMessages hparts) hfit hr
  · rintro done u rest rfl
    refine ((runs_performMessages (R := R.lenient) rfl ?_ hparts).mono ?_).concludes
    · intro p hpp
      exact hp.pinned (List.mem_append_left _ hpp)
    · rintro - _ ⟨mem', rfl, h⟩
      obtain ⟨l, hl, hle, hroom⟩ := h.target
      exact ⟨l, hl, fun s hs => lt_of_mem_performSlots hle hroom hs⟩
  · exact (runs_handleLeafMessages (R := R.lenient) rfl (fun s hs => (hsome s hs).2) hp
      hparts).concludes

end Visit

/-- A full leaf with the keys 1, 2 and 3. -/
def threeKeys : BeLeafNode (Fin 8) ℕ := ⟨fun i => Fin.ofNat 8 (i + 1), fun i => i, 3⟩

/-- Two pairs that do not fit into it. -/
def twoPairs : List (Upsert (Fin 8) ℕ) := [⟨4, 40, 1, .INSERT⟩, ⟨5, 50, 2, .INSERT⟩]

/-- The leaf is split and takes the pairs. -/
theorem leafChild_flush_threeKeys : ∃ split w' v',
    Returns (handler ⟨false, none, id, fun _ _ h => h⟩)
      (handleChild .smallest (.basic (Fin 8) ℕ) (.fresh default) ⟨[], [], []⟩ (0, twoPairs))
      ⟨Function.update (fun _ => none) 0 (some (.leaf threeKeys)), 1, {}, [], [], True⟩
      ⟨[(0, split)], [(0, some split, twoPairs)], []⟩ w' ∧
    Returns (handler ⟨false, none, id, fun _ _ h => h⟩)
      (handleLeafMessages .smallest (0, some split, twoPairs)) w' () v' ∧
    Flushed .smallest threeKeys twoPairs 0 (some split) v'.mem := by
  have hs : Sorted threeKeys.keys threeKeys.size := by
    intro i j hij hj
    have hj' : j < 3 := hj
    have h : i = 0 ∧ j = 1 ∨ i = 0 ∧ j = 2 ∨ i = 1 ∧ j = 2 := by omega
    rcases h with ⟨rfl, rfl⟩ | ⟨rfl, rfl⟩ | ⟨rfl, rfl⟩ <;> decide
  obtain ⟨-, -, split, hnone, -, ⟨k, tr', w', he, htr, hp, hrest⟩, -⟩ :=
    leafChild_flush ⟨false, none, id, fun _ _ h => h⟩ .smallest (.basic (Fin 8) ℕ) (.fresh default) 0 threeKeys
      twoPairs ⟨[], [], []⟩ ⟨Function.update (fun _ => none) 0 (some (.leaf threeKeys)), 1, {}, [], [], True⟩
      ⟨hs, le_rfl⟩ (List.pairwise_pair.mpr (by decide)) le_rfl
      ⟨rfl, ⟨0, Nat.zero_lt_one, rfl⟩, by simp, rfl, by simp⟩
  cases split with
  | none =>
    have hsize : 5 ≤ 3 := (hnone rfl).2.2
    exact absurd hsize (by decide)
  | some split =>
    subst htr
    obtain ⟨-, -, ⟨k', _, v', he', hflushed, -⟩, -⟩ := hrest w' [] hp fun _ _ => rfl
    exact ⟨split, w', v', ⟨k, he⟩, ⟨k', he'⟩, hflushed⟩

end BEpsilon.BeTree
