import Mathlib.Algebra.Order.Ring.Nat
import BEpsilon.BeTree.VisitInner

/-!
# BEpsilon.BeTree.FlushInner — a node whose children are inner nodes, and the whole flush

A round of the traversal takes one page out of the queue and puts at most two pages in for each of its
children, all one level below it, so the sum of `(2 * INNER_N + 1) ^ height` over the queue decreases.
-/

namespace BEpsilon.BeTree

open Slots Keyed PageWorld

variable {K V : Type} [LinearOrder K] [BoundedOrder K] [DecidableEq V] [Add V] [Inhabited K] [Inhabited V]
variable {W : Watch K V} {R : PageRules} {N : NodeSizes} {O : Unspecified K V} {A : Prop} {T : K → ℕ}
  {C : K → Option V} {H : ℕ} {c : PageId} {g : ℕ} {hs : List ℕ} {old : List (PageId × MessageMap K V)}
  {header : Header} {kept : Prop}
  {n : BeInnerNode K V}

omit [BoundedOrder K] [DecidableEq V] [Inhabited K] [Inhabited V] in
/-- The world while the inner children of `c` are visited. -/
structure VisitInners (W : Watch K V) (R : PageRules) (N : NodeSizes) (A : Prop) (T : K → ℕ) (C : K → Option V)
    (H : ℕ) (c : PageId) (g : ℕ) (n : BeInnerNode K V) (hs : List ℕ) (old : List (PageId × MessageMap K V))
    (header : Header) (kept : Prop) (rest : MessageMap K V) (t : Traversal K V)
    (w : PageWorld (BeNode K V) Header) : Prop where
  tree : ∃ new F pg vn, t.queue = old ++ new ∧ new.length + 2 * rest.length ≤ 2 * N.INNER_N ∧
    InnerState W R.ids N A T C H c g n hs old t.newPivots rest new w.mem F w.header w.created pg vn
  leafMessages : t.leafMessages = []
  pins : PinsAre w.pins (c :: t.queue.map Prod.fst)
  header_eq : w.header = header
  kept_eq : w.kept = kept

section Routine

variable (hlim : R.limit = none)
include hlim

omit [DecidableEq V] in
/-- An inner child takes its messages, or goes to the queue with some. -/
theorem handleChild_inner {rest : MessageMap K V}
    {e : ℕ × List (Upsert K V)} {t : Traversal K V} {w : PageWorld (BeNode K V) Header}
    (hw : VisitInners W R N A T C H c g n hs old header kept (e :: rest) t w) :
    Runs (handler R) (handleChild N O n t e) w fun t' w' =>
      VisitInners W R N A T C H c g n hs old header kept rest t' w' := by
  obtain ⟨i, v⟩ := e
  obtain ⟨mem, created, header', pins, recent, kept'⟩ := w
  obtain ⟨⟨new, F, pg, vn, hq, hcount, hI⟩, hleaf, hp, he, hk⟩ := hw
  dsimp only at hI hp he hk
  rw [List.length_cons] at hcount
  have hV := hI.visiting
  have hin : (i, v) ∈ (i, v) :: rest := List.mem_cons_self
  obtain ⟨hvne, hvs, hvl, -⟩ := hV.map.vectors _ hin
  dsimp only at hvl
  obtain ⟨k₀, hi₀, hc₀, hq₀⟩ := hV.next_child
  obtain ⟨hmq, hqc⟩ := hV.mem_eq hc₀
  have hT := hV.inv
  have hlt := hV.lt
  obtain ⟨m, hm, hok, -⟩ := hT.inner_page (h := g) (by omega) k₀
  have hknown := hT.known _ (hT.mem_page (h := g + 1) (by omega) k₀)
  rw [← hmq] at hm
  rw [hq₀] at hm hqc hknown
  have hfree : n.children i ∉ c :: t.queue.map Prod.fst := by
    have h := hV.child_free hin
    rwa [hq, List.map_append]
  have hpins : PinsAre ((n.children i, mem (n.children i)) :: pins)
      (n.children i :: c :: t.queue.map Prod.fst) := hp.cons _ _
  have hpq : ∃ s, (n.children i, s) ∈ (n.children i, mem (n.children i)) :: pins :=
    ⟨_, List.mem_cons_self⟩
  simp only [handleChild, Prog.bind_def]
  refine runs_check (fun _ => hV.childAsserts) (runs_pinPage (hp.ne hfree) (by simp [hlim])
    (show (mem (n.children i)).isSome = !false by rw [hm]; rfl) hknown ?_)
  refine runs_read hm (.inl hpq) ?_
  simp only [handleInnerChild, Prog.bind_def, Prog.pure_def]
  split
  next hfit =>
    obtain ⟨F', hI'⟩ := hI.merged hm hok hfit
    refine runs_write hpq (runs_check (fun _ => mergedAsserts hok.upserts hvs) ?_)
    refine runs_release hpins (by simp) fun pins' hp' => runs_ret ?_
    exact ⟨⟨new, F', pg, vn, hq, by omega, hI'⟩, hleaf, hp', he, hk⟩
  next hfit =>
    have hneed : m.neededSlots N v ≤ N.MAX_FLUSH_SIZE := by
      have := hok.upserts_le
      rw [BeInnerNode.neededSlots]
      omega
    have hpos : 0 < m.neededSlots N v := by
      rw [BeInnerNode.neededSlots]
      omega
    have hR := removeMessages_spec O hok.upserts hvs hvne hneed
    have hok' := InnerState.removed_ok hok hR
    refine runs_removeMessages hok.upserts hvs hvne hneed hm hpq ?_
    set m' := (m.removeMessages N O v N.MAX_FLUSH_SIZE).1 with hm'
    set map := (m.removeMessages N O v N.MAX_FLUSH_SIZE).2 with hmap
    have hlen : map.length ≤ m.size + 1 := MapOk.length_le ⟨hR.nodup, hR.vectors⟩
    split
    next hroom =>
      have h3 := N.inner_ge
      have h2 : 2 ≤ m.size := by omega
      have hfreshp : ∀ h ≤ H, ∀ k, pg h k ≠ R.ids created := fun h hh k =>
        hT.fresh_page R.ids_inj le_rfl hh k
      have hqr : n.children i ≠ R.ids created := hq₀ ▸ hfreshp (g + 1) (by omega) k₀
      have hfreshm : mem (R.ids created) = none := by
        have h := (hT.fresh_mem R.ids_inj le_rfl).1
        rwa [Function.update_of_ne (hc₀ ▸ hfreshp (g + 2) (by omega) k₀).symm] at h
      have hfreshq : R.ids created ∉ n.children i :: c :: t.queue.map Prod.fst := by
        intro hr
        rcases List.mem_cons.mp hr with hr | hr
        · exact hqr hr.symm
        rcases List.mem_cons.mp hr with hr | hr
        · exact hfreshp (g + 2) (by omega) k₀ (hc₀.trans hr.symm)
        obtain ⟨y, hy, hy'⟩ := List.mem_map.mp hr
        rw [hq] at hy
        rcases List.mem_append.mp hy with hy | hy
        · obtain ⟨g₀, -, hE⟩ := exists_entry hV.entries hy
          obtain ⟨k, hkk⟩ := hE.page
          exact hfreshp (g₀ + 1) hE.lt.le k (hkk.trans hy')
        · obtain ⟨k, hkk⟩ := (hI.new y hy).page
          exact hfreshp (g + 1) (by omega) k (hkk.trans hy')
      obtain ⟨F', pg', vn', hI'⟩ := hI.split hm hok hR (O.memory (R.ids created)) R.ids_inj h2 (O.traverse_perm map)
      have hleft : m'.leftHalf.size = (m.size - 1) / 2 := by rw [BeInnerNode.leftHalf, hR.size]
      refine runs_splitInnerNode hpq (by rw [Function.update_of_ne hqr.symm, hfreshm])
        (hpins.ne hfreshq) hlim (Function.update_self _ _ _) (by rw [hR.size]; exact h2) hok'.upserts ?_
      have hmapOk : MapOk N m'.pivots m'.size (O.traverse map) := by
        refine MapOk.perm ⟨hR.nodup, fun e he => ?_⟩ (O.traverse_perm map)
        rw [hR.pivots, hR.size]
        exact hR.vectors e he
      have hmapne : O.traverse map ≠ [] := fun e =>
        hR.nonempty hpos (List.perm_nil.mp (e ▸ O.traverse_perm map).symm)
      have hasserts := splitMapAsserts hmapOk hok'.sorted (s := (m.size - 1) / 2)
        (by rw [hR.size]; omega) hmapne
      refine runs_asInner (Function.update_self _ _ _) (.inl ?_) ?_
      · exact ⟨_, List.mem_cons_of_mem _ List.mem_cons_self⟩
      rw [hleft]
      set maps := splitMap ((m.size - 1) / 2) (O.traverse map) with hmaps
      refine runs_check (fun _ => hasserts.1) (runs_check (fun _ => hasserts.2) ?_)
      have hpins₂ := (hpins.cons (R.ids created) none).perm (List.Perm.swap _ _ _)
      refine runs_enqueue hpins₂ (by simp) fun pins₁ recent₁ hp₁ => ?_
      refine runs_enqueue (hp₁.perm List.perm_middle) ?_ fun pins₂ recent₂ hp₂ => runs_ret ?_
      · rw [Function.update_of_ne hqr.symm, Function.update_self]
        rfl
      · have hl₁ := length_enqueued_le (n.children i) maps.1
        have hl₂ := length_enqueued_le (R.ids created) maps.2
        refine ⟨⟨_, F', pg', vn', ?_, ?_, hI'⟩, hleaf, hp₂.perm ?_, he, hk⟩
        · rw [hq, List.append_assoc, List.append_assoc, List.append_assoc]
        · rw [List.length_append, List.length_append]
          omega
        · simp only [List.map_append]
          refine (List.Perm.append_left _ List.perm_middle).trans (List.perm_middle.trans ?_)
          refine List.Perm.cons c ?_
          rw [← List.append_assoc]
          refine List.perm_append_comm.trans ?_
          rw [List.append_assoc]
          exact List.Perm.append_left _ List.perm_append_comm
    next hroom =>
      have hne := hR.nonempty hpos
      obtain ⟨F', hI'⟩ := hI.queued hm hok hR hne (by
        have := hok.size_le
        omega)
      refine runs_ret ⟨⟨_, F', pg, vn, ?_, ?_, hI'⟩, hleaf, hpins.perm ?_, he, hk⟩
      · rw [hq, List.append_assoc]
      · rw [List.length_append, List.length_singleton]
        omega
      · rw [List.map_append]
        refine (List.Perm.swap _ _ _).trans (List.Perm.cons c ?_)
        exact (List.perm_append_singleton _ _).symm

omit hlim [DecidableEq V] [Inhabited K] [Inhabited V] in
/-- The node has taken the pivots and has been released. -/
theorem VisitInners.flushing {t : Traversal K V} {w : PageWorld (BeNode K V) Header}
    {pins : List (PageId × Option (BeNode K V))}
    (hw : VisitInners W R N A T C H c g n hs old header kept [] t w)
    (hp : PinsAre pins (t.queue.map Prod.fst)) :
    ∃ l ≤ 2 * N.INNER_N, Flushing W R N A T C header kept H (hs ++ List.replicate l g) t.queue
      ⟨Function.update w.mem c (some (.inner (n.insertPivots (sortPivots t.newPivots)))), w.created,
        w.header, pins, c :: w.recent, w.kept⟩ := by
  obtain ⟨⟨new, F, pg, vn, hq, hcount, hI⟩, -, -, he, hk⟩ := hw
  have hV := hI.visiting
  have hlt := hV.lt
  obtain ⟨k₀, hk₀⟩ := hV.page
  have hold : ∀ e ∈ old, e.1 ≠ c := fun e he => (hV.old_ne he hk₀).1
  have hkid : ∀ e ∈ new, ∃ k, pg (g + 1) k = e.1 ∧ pg (g + 2) k = c := fun e he =>
    hV.kid e.1 (List.mem_map_of_mem he)
  have hnew : ∀ e ∈ new, e.1 ≠ c := fun e he => by
    obtain ⟨k, hk', hc'⟩ := hkid e he
    rw [← hk', ← hc']
    exact hV.inv.routed.page_ne (by omega) (by omega) (by omega)
  refine ⟨new.length, by omega, ⟨F, pg, hV.finish, ?_, ?_, fun id hid => ?_, hV.finish_waits, ?_⟩, hp, he, hk⟩
  · rw [hq]
    refine List.rel_append ?_ ?_
    · exact entries_imp hV.entries fun g₀ e he hE =>
        hE.congr (Function.update_of_ne (hold e he) _ _) rfl hE.page
    · exact entries_replicate fun e he =>
        (hI.new e he).congr (Function.update_of_ne (hnew e he) _ _) rfl (hI.new e he).page
  · rw [hq, List.pairwise_append]
    refine ⟨hV.apart, ?_, fun a ha b hb k x y hx hy hka hkb => ?_⟩
    · have hnd : new.Pairwise fun a b => a.1 ≠ b.1 := List.pairwise_map.mp hV.nodup
      exact hnd.imp_of_mem fun ha hb hab =>
        apart_of_level hV.inv.routed (by omega) (hI.new _ ha).page (hI.new _ hb).page hab
    · -- a path over the child comes to `c`
      obtain ⟨k', hk', hc'⟩ := hkid b hb
      obtain rfl := hV.inv.routed.level y (g + 1) k k' hy (by omega) (hkb.trans hk'.symm)
      have hc := hV.inv.routed.parent (g + 1) (by omega) _ _ (hkb.trans hk'.symm)
      exact hV.away a ha k (g + 2) x (by omega) hx (hc.trans hc') hka
  · rw [hq]
    rcases hV.flying id hid with rfl | h | ⟨e, he, h⟩
    · exact absurd (List.perm_nil.mp hV.flight) hid
    · obtain ⟨e, he, h⟩ := List.mem_map.mp h
      exact ⟨e, List.mem_append_right _ he, h⟩
    · exact ⟨e, List.mem_append_left _ he, h⟩
  · intro e he k h hh hk
    have hopen : W.Open N w.mem w.created pg k := by
      rw [hq] at he
      rcases List.mem_append.mp he with he | he
      · exact hV.open_old e he k h hh hk
      · -- the path of `k` comes to `c`
        obtain ⟨k', hk', hc'⟩ := hkid e he
        obtain rfl := hV.inv.routed.level h (g + 1) k k' hh (by omega) (hk.trans hk'.symm)
        have hc := hV.inv.routed.parent (g + 1) (by omega) _ _ (hk.trans hk'.symm)
        exact hV.open_below k (hc.trans hc') (by simp)
    exact hopen.congr (Function.update_of_ne (hV.leaf_ne k) _ _) le_rfl

omit [DecidableEq V] in
/-- A page of the queue whose children are inner nodes. -/
theorem handleTraversalNode_inner {map : MessageMap K V}
    {w : PageWorld (BeNode K V) Header}
    (hw : Flushing W R N A T C header kept H ((g + 1) :: hs) ((c, map) :: old) w) :
    Runs (handler R) (handleTraversalNode N O c map old) w fun queue' w' =>
      ∃ l ≤ 2 * N.INNER_N, Flushing W R N A T C header kept H (hs ++ List.replicate l g) queue' w' := by
  obtain ⟨mem, created, header', pins, recent, kept'⟩ := w
  obtain ⟨⟨F, pg, hK, hl, hap, hF, hwaits, hopen⟩, hp, he, hk⟩ := hw
  dsimp only at hK hl hwaits hopen hp he hk
  obtain ⟨n, hV⟩ := Visiting.start hK hl hap hF hwaits hopen (O.traverse_perm map)
  have hroom := hV.room
  simp only [handleTraversalNode, Prog.bind_def, Prog.pure_def]
  refine runs_asInner hV.cur (.inl (hp.pinned List.mem_cons_self)) (runs_bind ?_)
  refine Runs.mono (runs_forFold (fun rest t w => VisitInners W R N A T C H c g n hs old header kept rest t w)
    (fun e rest t w h => handleChild_inner hlim h)
    ⟨⟨[], F, pg, n, by simp, ?_, ⟨by simpa using hV, by simp⟩⟩, rfl, by simpa using hp, he, hk⟩) ?_
  · rw [List.length_nil]
    omega
  rintro t ⟨mem₁, created₁, header₁, pins₁, recent₁, kept₁⟩ hw₁
  have hp₁ : PinsAre pins₁ (c :: t.queue.map Prod.fst) := hw₁.pins
  obtain ⟨_, _, _, _, _, _, hI₁⟩ := hw₁.tree
  refine runs_check (fun _ => hI₁.visiting.pivotsAsserts) (runs_write (hp₁.pinned List.mem_cons_self) ?_)
  refine runs_release hp₁ (by simp) fun pins₂ hp₂ => ?_
  rw [hw₁.leafMessages]
  exact runs_ret (hw₁.flushing hp₂)

/-! ### The whole traversal -/

/-- What the heights of the queue count for. -/
def weight (N : NodeSizes) (hs : List ℕ) : ℕ := (hs.map fun g => (2 * N.INNER_N + 1) ^ (g + 1)).sum

omit hlim in
theorem weight_children {l : ℕ} (hl : l ≤ 2 * N.INNER_N) :
    weight N (hs ++ List.replicate l g) < weight N ((g + 1) :: hs) := by
  have hpos : 0 < (2 * N.INNER_N + 1) ^ (g + 1) := Nat.pow_pos (Nat.succ_pos _)
  have hle : l * (2 * N.INNER_N + 1) ^ (g + 1) ≤ 2 * N.INNER_N * (2 * N.INNER_N + 1) ^ (g + 1) :=
    Nat.mul_le_mul_right _ hl
  have hpow : (2 * N.INNER_N + 1) ^ (g + 1 + 1) =
      2 * N.INNER_N * (2 * N.INNER_N + 1) ^ (g + 1) + (2 * N.INNER_N + 1) ^ (g + 1) := by
    rw [pow_succ _ (g + 1), Nat.mul_comm, Nat.succ_mul]
  simp only [weight, List.map_append, List.map_replicate, List.sum_append, List.sum_replicate_nat,
    List.map_cons, List.sum_cons]
  omega

omit [DecidableEq V] in
/-- The level order traversal hands on all messages. -/
theorem traverseQueue_spec (hW : W.Of R O) (hN : 3 ≤ N.LEAF_N)
    {queue : List (PageId × MessageMap K V)} {w : PageWorld (BeNode K V) Header}
    (hw : Flushing W R N A T C header kept H hs queue w) :
    Runs (handler R) (Prog.iter (traverseQueue N O) queue) w fun _ w' =>
      Flushing W R N A T C header kept H [] [] w' := by
  refine runs_loop (fun m queue w => ∃ hs, m = weight N hs ∧
    Flushing W R N A T C header kept H hs queue w) ?_ ⟨hs, rfl, hw⟩
  rintro _ queue w ⟨hs, rfl, hw⟩
  cases queue with
  | nil =>
    obtain ⟨F, pg, -, hl, -⟩ := hw.tree
    obtain rfl := List.forall₂_nil_right_iff.mp hl
    exact runs_ret (runs_ret hw)
  | cons e queue =>
    obtain ⟨c, map⟩ := e
    obtain ⟨F, pg, -, hl, -⟩ := hw.tree
    obtain ⟨g, hs', -, -, rfl⟩ := List.forall₂_cons_right_iff.mp hl
    simp only [traverseQueue, Prog.bind_def, Prog.pure_def]
    refine runs_bind ?_
    cases g with
    | zero =>
      refine (handleTraversalNode_leaf hW hlim hN hw).mono ?_
      rintro _ w' ⟨rfl, hw'⟩
      refine runs_ret ⟨_, ?_, hs', rfl, hw'⟩
      simp [weight]
    | succ g =>
      refine (handleTraversalNode_inner hlim hw).mono ?_
      rintro queue' w' ⟨l, hl, hw'⟩
      exact runs_ret ⟨_, weight_children hl, _, rfl, hw'⟩

end Routine

end BEpsilon.BeTree
