import BEpsilon.BeTree.Rules
import BEpsilon.BeTree.Visit

/-!
# BEpsilon.BeTree.FlushLeaf — a node whose children are leaves

The messages for a leaf are kept until its parent has been released, the leaf being split before if they
may not fit; then they are applied one by one.
-/

namespace BEpsilon.BeTree

open Slots Keyed PageWorld

/-- The state of a flush between two pages of the queue, whose heights are `hs`. -/
structure Flushing {K V : Type} [LinearOrder K] [Add V] (W : Watch K V) (R : PageRules) (N : NodeSizes) (A : Prop)
    (T : K → ℕ) (C : K → Option V) (header : Header) (kept : Prop) (H : ℕ) (hs : List ℕ)
    (queue : List (PageId × MessageMap K V)) (w : PageWorld (BeNode K V) Header) : Prop where
  tree : ∃ F pg, Keeps R.ids N A T C w.mem F w.header w.created H pg ∧
    List.Forall₂ (Entry N w.mem F H pg) hs queue ∧ (queue.Pairwise fun a b => Apart pg H a.1 b.1) ∧
    (∀ id, F id ≠ [] → ∃ e ∈ queue, e.1 = id) ∧ W.Waits w.mem F ∧
    ∀ e ∈ queue, ∀ k, ∀ h ≤ H, pg h k = e.1 → W.Open N w.mem w.created pg k
  pins : PinsAre w.pins (queue.map Prod.fst)
  header_eq : w.header = header
  kept_eq : w.kept = kept

/-! ### Messages that wait for a leaf -/

/-- What `handleTraversalNode` keeps of a leaf child: the page, its right half, the messages. -/
abbrev LeafJob (K V : Type) : Type := PageId × Option (K × PageId) × List (Upsert K V)

/-- The pages that are held for a leaf child. -/
def LeafJob.pages {K V : Type} (j : LeafJob K V) : List PageId :=
  j.1 :: j.2.1.toList.map Prod.snd

section Jobs

variable {K V : Type} [LinearOrder K] [Add V] {W : Watch K V} {N : NodeSizes}
  {mem mem' : PageId → Option (BeNode K V)} {pg pg' : ℕ → K → PageId} {j : LeafJob K V}

omit [Add V] in
theorem targetOf_mem (j : LeafJob K V) (key : K) : targetOf j.1 j.2.1 key ∈ LeafJob.pages j := by
  obtain ⟨childPage, splitResult, vector⟩ := j
  cases splitResult with
  | none => exact List.mem_singleton_self _
  | some s =>
    unfold targetOf LeafJob.pages
    dsimp only
    split
    · exact List.mem_cons_of_mem _ (List.mem_map_of_mem (Option.mem_toList.mpr rfl))
    · exact List.mem_cons_self

/-- The leaves are where the messages go to, and have room for them. -/
structure JobOk (N : NodeSizes) (mem : PageId → Option (BeNode K V)) (pg : ℕ → K → PageId)
    (j : LeafJob K V) : Prop where
  target : ∀ u ∈ j.2.2, pg 0 u.key = targetOf j.1 j.2.1 u.key
  fits : ∀ p ∈ LeafJob.pages j, ∃ t, mem p = some (.leaf t) ∧
    LeafFits N t (j.2.2.filter fun u => targetOf j.1 j.2.1 u.key = p)

theorem JobOk.congr (hj : JobOk N mem pg j) (hm : ∀ p ∈ LeafJob.pages j, mem' p = mem p)
    (hp : ∀ u ∈ j.2.2, pg 0 u.key ∈ LeafJob.pages j → pg' 0 u.key = pg 0 u.key) : JobOk N mem' pg' j where
  target u hu := by
    rw [hp u hu, hj.target u hu]
    rw [hj.target u hu]
    exact targetOf_mem j u.key
  fits p hpg := by
    rw [hm p hpg]
    exact hj.fits p hpg

/-- The messages come in the order of their keys, and no INSERT finds its key past the end of its leaf. -/
structure JobClear (W : Watch K V) (N : NodeSizes) (mem : PageId → Option (BeNode K V)) (j : LeafJob K V) : Prop where
  sorted : KeysSorted Upsert.key j.2.2
  clear : W.on → ∀ u ∈ j.2.2, u.type = .INSERT → ∀ t, mem (targetOf j.1 j.2.1 u.key) = some (.leaf t) →
    t.Clear N u.key

omit [Add V] in
theorem JobClear.congr (hj : JobClear W N mem j) (hm : ∀ p ∈ LeafJob.pages j, mem' p = mem p) :
    JobClear W N mem' j where
  sorted := hj.sorted
  clear hon u hu hi t ht := by
    rw [hm _ (targetOf_mem j u.key)] at ht
    exact hj.clear hon u hu hi t ht

/-- The messages that are left, after the first one has been applied. -/
theorem JobClear.perform {childPage : PageId} {splitResult : Option (K × PageId)} {u : Upsert K V}
    {v : List (Upsert K V)} {t : BeLeafNode K V} (hj : JobClear W N mem (childPage, splitResult, u :: v))
    (ht : mem (targetOf childPage splitResult u.key) = some (.leaf t)) :
    JobClear W N (Function.update mem (targetOf childPage splitResult u.key) (some (.leaf (t.perform u))))
      (childPage, splitResult, v) where
  sorted := (keysSorted_cons.mp hj.sorted).2
  clear hon x hx hi t' ht' := by
    have hlt := (keysSorted_cons.mp hj.sorted).1 x hx
    by_cases e : targetOf childPage splitResult x.key = targetOf childPage splitResult u.key
    · rw [e, Function.update_self] at ht'
      obtain rfl : t.perform u = t' := by simpa using ht'
      exact (hj.clear hon x (List.mem_cons_of_mem _ hx) hi t (by rw [e, ht])).perform hlt
    · rw [Function.update_of_ne e] at ht'
      exact hj.clear hon x (List.mem_cons_of_mem _ hx) hi t' ht'

/-- The messages `jobs` are applied to the leaves below the page `c`, which has been released. -/
structure Settling (W : Watch K V) (ids : ℕ → PageId) (N : NodeSizes) (A : Prop) (T : K → ℕ) (C : K → Option V) (H : ℕ)
    (c : PageId) (hs : List ℕ) (old : List (PageId × MessageMap K V)) (jobs : List (LeafJob K V))
    (mem : PageId → Option (BeNode K V)) (F : PageId → List (Upsert K V)) (header : Header) (created : ℕ)
    (pg : ℕ → K → PageId) : Prop where
  keeps : Keeps ids N A T C mem F header created H pg
  pos : 1 ≤ H
  below : ∀ j ∈ jobs, ∀ u ∈ j.2.2, pg 1 u.key = c
  flight : (F c).Perm (jobs.flatMap fun j => j.2.2)
  flying : ∀ id, F id ≠ [] → id = c ∨ ∃ e ∈ old, e.1 = id
  entries : List.Forall₂ (Entry N mem F H pg) hs old
  apart : old.Pairwise fun a b => Apart pg H a.1 b.1
  away : ∀ e ∈ old, e.1 ≠ c ∧ Apart pg H c e.1
  job : ∀ j ∈ jobs, JobOk N mem pg j
  nodup : (jobs.flatMap LeafJob.pages).Nodup
  waits : W.Waits mem F
  clear : ∀ j ∈ jobs, JobClear W N mem j
  open_old : ∀ e ∈ old, ∀ k, ∀ h ≤ H, pg h k = e.1 → W.Open N mem created pg k

namespace Settling

variable {ids : ℕ → PageId} {A : Prop} {T : K → ℕ} {C : K → Option V} {H : ℕ} {c : PageId} {hs : List ℕ}
  {old : List (PageId × MessageMap K V)} {jobs : List (LeafJob K V)}
  {F : PageId → List (Upsert K V)} {header : Header} {created : ℕ} {childPage : PageId}
  {splitResult : Option (K × PageId)} {u : Upsert K V} {v : List (Upsert K V)}

/-- The leaf that the next message goes to. -/
theorem leaf (hS : Settling W ids N A T C H c hs old ((childPage, splitResult, u :: v) :: jobs) mem F header
      created pg) :
    ∃ t, mem (targetOf childPage splitResult u.key) = some (.leaf t) ∧
      LeafFits N t (u :: v.filter fun x =>
        targetOf childPage splitResult x.key = targetOf childPage splitResult u.key) ∧
      (W.on → u.type = .INSERT → t.Clear N u.key) := by
  obtain ⟨t, ht, hfit⟩ := (hS.job _ List.mem_cons_self).fits _
    (targetOf_mem (childPage, splitResult, u :: v) u.key)
  refine ⟨t, ht, ?_, fun hon hi => ?_⟩
  · rwa [List.filter_cons, if_pos (by simp)] at hfit
  · exact (hS.clear _ List.mem_cons_self).clear hon u List.mem_cons_self hi t ht

/-- One message is applied. -/
theorem perform (hS : Settling W ids N A T C H c hs old ((childPage, splitResult, u :: v) :: jobs) mem F header
      created pg) {t : BeLeafNode K V} (ht : mem (targetOf childPage splitResult u.key) = some (.leaf t)) :
    Settling W ids N A T C H c hs old ((childPage, splitResult, v) :: jobs)
      (Function.update mem (targetOf childPage splitResult u.key) (some (.leaf (t.perform u))))
      (Function.update F c (v ++ jobs.flatMap fun j => j.2.2)) header created pg := by
  set p := targetOf childPage splitResult u.key with hp
  obtain ⟨t', ht', hfit, -⟩ := hS.leaf
  obtain rfl : t' = t := by simpa using ht'.symm.trans ht
  have hjob := hS.job _ List.mem_cons_self
  have hpu : pg 0 u.key = p := hjob.target u List.mem_cons_self
  have hcu : pg 1 u.key = c := hS.below _ List.mem_cons_self u List.mem_cons_self
  -- the pages of the other jobs are other pages
  have hother : ∀ j ∈ jobs, ∀ p' ∈ LeafJob.pages j, p' ≠ p := by
    intro j hj p' hp' e
    have hnd := hS.nodup
    rw [List.flatMap_cons, List.nodup_append] at hnd
    exact hnd.2.2 p (targetOf_mem (childPage, splitResult, u :: v) u.key) p'
      (List.mem_flatMap.mpr ⟨j, hj, hp'⟩) e.symm
  have hsettle := hS.keeps.settle (Function.update F c (v ++ jobs.flatMap fun j => j.2.2)) hS.pos
    (u := u) (t := t') (by rw [hpu, ht']) hfit.2.size_le
    (by
      rw [hcu, Function.update_self]
      exact hS.flight)
    (fun id hid => Function.update_of_ne (hcu ▸ hid) _ _)
  rw [hpu] at hsettle
  refine ⟨hsettle, hS.pos, fun j hj x hx => ?_, ?_, fun id hid => ?_, ?_, hS.apart, hS.away,
    fun j hj => ?_, hS.nodup, hS.waits.leaf fun id x hx => ?_, fun j hj => ?_, fun e he k h hh hk => ?_⟩
  · rcases List.mem_cons.mp hj with rfl | hj
    · exact hS.below _ List.mem_cons_self x (List.mem_cons_of_mem _ hx)
    · exact hS.below j (List.mem_cons_of_mem _ hj) x hx
  · rw [Function.update_self]
    rfl
  · by_cases hc : id = c
    · exact .inl hc
    · rw [Function.update_of_ne hc] at hid
      exact hS.flying id hid
  · refine entries_imp hS.entries fun g e he hE => hE.congr ?_ ?_ hE.page
    · obtain ⟨n, hn, -⟩ := hE.node
      refine Function.update_of_ne (fun e' => ?_) _ _
      rw [e', ht'] at hn
      simp at hn
    · exact Function.update_of_ne (hS.away e he).1 _ _
  · rcases List.mem_cons.mp hj with rfl | hj
    · refine ⟨fun x hx => hjob.target x (List.mem_cons_of_mem _ hx), fun p' hp' => ?_⟩
      by_cases e : p' = p
      · subst e
        exact ⟨_, Function.update_self _ _ _, hfit.2⟩
      · obtain ⟨t₂, ht₂, hfit₂⟩ := hjob.fits p' hp'
        refine ⟨t₂, by rw [Function.update_of_ne e, ht₂], ?_⟩
        rwa [List.filter_cons, if_neg (by simpa using Ne.symm e)] at hfit₂
    · exact (hS.job j (List.mem_cons_of_mem _ hj)).congr
        (fun p' hp' => Function.update_of_ne (hother j hj p' hp') _ _) fun _ _ _ => rfl
  · by_cases hc : id = c
    · subst hc
      rw [Function.update_self] at hx
      exact hS.flight.mem_iff.mpr (List.mem_cons_of_mem _ hx)
    · rwa [Function.update_of_ne hc] at hx
  · rcases List.mem_cons.mp hj with rfl | hj
    · exact (hS.clear _ List.mem_cons_self).perform ht'
    · exact (hS.clear j (List.mem_cons_of_mem _ hj)).congr fun p' hp' => Function.update_of_ne (hother j hj p' hp') _ _
  · -- the leaf of `k` is not below `c`
    refine (hS.open_old e he k h hh hk).congr (Function.update_of_ne (fun e' => ?_) _ _) le_rfl
    have hck := (hS.keeps.inv.routed.parent 0 hS.pos _ _ (e'.trans hpu.symm)).trans hcu
    exact (hS.away e he).2 k 1 h hS.pos hh hck hk

/-- The messages of one child have all been applied. -/
theorem next (hS : Settling W ids N A T C H c hs old ((childPage, splitResult, []) :: jobs) mem F header
      created pg) : Settling W ids N A T C H c hs old jobs mem F header created pg :=
  { hS with
    below := fun j hj => hS.below j (List.mem_cons_of_mem _ hj)
    flight := hS.flight
    job := fun j hj => hS.job j (List.mem_cons_of_mem _ hj)
    clear := fun j hj => hS.clear j (List.mem_cons_of_mem _ hj)
    nodup := by
      have h := hS.nodup
      rw [List.flatMap_cons] at h
      exact (List.nodup_append.mp h).2.1 }

end Settling

end Jobs

/-! ### The routines -/

section Routines

variable {K V : Type} [LinearOrder K] [BoundedOrder K] [DecidableEq V] [Add V] [Inhabited K] [Inhabited V]
variable {W : Watch K V} {R : PageRules} {N : NodeSizes} {A : Prop} {T : K → ℕ} {C : K → Option V} {H : ℕ}
  {c : PageId} {hs : List ℕ} {old : List (PageId × MessageMap K V)} {header : Header} {kept : Prop}
  {w : PageWorld (BeNode K V) Header}

omit [BoundedOrder K] [DecidableEq V] [Inhabited K] [Inhabited V] in
/-- The world while the messages `jobs` are applied. -/
structure SettlingAt (W : Watch K V) (R : PageRules) (N : NodeSizes) (A : Prop) (T : K → ℕ) (C : K → Option V)
    (H : ℕ) (c : PageId) (hs : List ℕ) (old : List (PageId × MessageMap K V)) (header : Header) (kept : Prop)
    (jobs : List (LeafJob K V)) (pinned : List PageId) (w : PageWorld (BeNode K V) Header) : Prop where
  tree : ∃ F pg, Settling W R.ids N A T C H c hs old jobs w.mem F w.header w.created pg
  pins : PinsAre w.pins (pinned ++ old.map Prod.fst)
  header_eq : w.header = header
  kept_eq : w.kept = kept

variable (hon : R.asserts = true → W.on)
include hon

omit [BoundedOrder K] [DecidableEq V] [Inhabited K] [Inhabited V] in
theorem performMessages_spec {childPage : PageId} {splitResult : Option (K × PageId)}
    {v : List (Upsert K V)} {jobs : List (LeafJob K V)} {pinned : List PageId}
    (hpin : ∀ p ∈ LeafJob.pages (childPage, splitResult, v), p ∈ pinned)
    (hw : SettlingAt W R N A T C H c hs old header kept ((childPage, splitResult, v) :: jobs) pinned w) :
    Runs (handler R) (Prog.forFold (fun _ upsert => performMessage N childPage splitResult upsert) v ()) w
      fun _ w' => SettlingAt W R N A T C H c hs old header kept ((childPage, splitResult, []) :: jobs) pinned
        w' := by
  refine runs_forFold (fun v _ w =>
    SettlingAt W R N A T C H c hs old header kept ((childPage, splitResult, v) :: jobs) pinned w) ?_ hw
  rintro u v - ⟨mem, created, header', pins, recent, kept'⟩ ⟨⟨F, pg, hT⟩, hp, he, hk⟩
  obtain ⟨t, ht, hfit, hclear⟩ := hT.leaf
  refine runs_performMessage (fun h => hclear (hon h)) hfit.2.size_le ht ?_ ⟨⟨_, pg, hT.perform ht⟩, hp, he, hk⟩
  refine hp.pinned (List.mem_append_left _ (hpin _ ?_))
  exact targetOf_mem (childPage, splitResult, v) u.key

omit [BoundedOrder K] [DecidableEq V] [Inhabited K] [Inhabited V] in
/-- The messages of one leaf child. -/
theorem handleLeafMessages_spec {j : LeafJob K V} {jobs : List (LeafJob K V)}
    (hw : SettlingAt W R N A T C H c hs old header kept (j :: jobs) ((j :: jobs).flatMap LeafJob.pages) w) :
    Runs (handler R) (handleLeafMessages N j) w fun _ w' =>
      SettlingAt W R N A T C H c hs old header kept jobs (jobs.flatMap LeafJob.pages) w' := by
  obtain ⟨childPage, splitResult, v⟩ := j
  have hpages : ∀ p ∈ LeafJob.pages (childPage, splitResult, v),
      p ∈ ((childPage, splitResult, v) :: jobs).flatMap LeafJob.pages := fun p hp =>
    List.mem_flatMap.mpr ⟨_, List.mem_cons_self, hp⟩
  refine runs_bind ((performMessages_spec hon hpages hw).mono ?_)
  rintro - ⟨mem, created, header', pins, recent, kept'⟩ ⟨⟨F, pg, hT⟩, hp, he, hk⟩
  have hmem : ∀ p ∈ LeafJob.pages (childPage, splitResult, []), (mem p).isSome := fun p hp => by
    obtain ⟨t, ht, -⟩ := (hT.job _ List.mem_cons_self).fits p hp
    exact Option.isSome_iff_exists.mpr ⟨_, ht⟩
  refine runs_release hp (hmem _ List.mem_cons_self) fun pins' hp' => ?_
  cases splitResult with
  | none => exact runs_ret ⟨⟨F, pg, hT.next⟩, hp', he, hk⟩
  | some s =>
    obtain ⟨middleKey, rightPage⟩ := s
    have hr : Runs (handler R) ((PageProg.unpinPage rightPage true).bind .ret)
        ⟨mem, created, header', pins', childPage :: recent, kept'⟩ fun _ w' =>
        SettlingAt W R N A T C H c hs old header kept jobs (jobs.flatMap LeafJob.pages) w' := by
      refine runs_release hp' (hmem _ ?_) fun pins'' hp'' => runs_ret ⟨⟨F, pg, hT.next⟩, hp'', he, hk⟩
      exact List.mem_cons_of_mem _ (List.mem_singleton_self _)
    rwa [Prog.bind_ret] at hr

omit [BoundedOrder K] [DecidableEq V] [Inhabited K] [Inhabited V] in
/-- The messages of all leaf children. -/
theorem settle_spec {jobs : List (LeafJob K V)}
    (hw : SettlingAt W R N A T C H c hs old header kept jobs (jobs.flatMap LeafJob.pages) w) :
    Runs (handler R) (Prog.forFold (fun _ m => handleLeafMessages N m) jobs ()) w fun _ w' =>
      Flushing W R N A T C header kept H hs old w' := by
  refine (runs_forFold (fun jobs _ w =>
    SettlingAt W R N A T C H c hs old header kept jobs (jobs.flatMap LeafJob.pages) w)
    (fun j jobs _ w h => handleLeafMessages_spec hon h) hw).mono ?_
  rintro - w' ⟨⟨F, pg, hT⟩, hp, he, hk⟩
  refine ⟨⟨F, pg, hT.keeps, hT.entries, hT.apart, fun id hid => ?_, hT.waits, hT.open_old⟩, hp, he, hk⟩
  rcases hT.flying id hid with rfl | h
  · exact absurd (List.perm_nil.mp hT.flight) hid
  · exact h

end Routines

end BEpsilon.BeTree
