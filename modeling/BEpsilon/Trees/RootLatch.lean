import BEpsilon.BTree.Latching
import BEpsilon.BTree.Structure
import BEpsilon.BeTree.RootLatching
import BEpsilon.BeTree.Structure
import BEpsilon.Trees.Pins

/-!
# BEpsilon.Trees.RootLatch — the root page below any number of threads

Threads make any calls on one tree, with their commands in any order; calls may end with an error.  The root
page is never changed without its exclusive latch, and the asserts that compare the flag in the header with
the root page hold, though the flag is read before the latch is taken: it is cleared only below the exclusive
latch, after the swap that makes the root page an inner one and before the release.
-/

namespace BEpsilon

variable {K V T : Type} [LinearOrder K] [DecidableEq V] [Add V] [Inhabited K] [Inhabited V] [DecidableEq T]

section StandsAt

omit [DecidableEq V] [Add V] [Inhabited K] [Inhabited V]

theorem BTree.WellFormed.standing {N : BTree.NodeSizes} {mem : PageId → Option (BTree.BNode K V)}
    {created : Set PageId} {header : BTree.Header} (hw : BTree.WellFormed N mem header)
    (hc : header.rootID ∈ created) : StandsAt BTree.layout header.rootID mem created header := by
  obtain ⟨H, hH⟩ := hw.tree
  have hroot : ∃ d, mem header.rootID = some d := by
    cases H with
    | zero =>
      obtain ⟨n, hn, -⟩ := hH
      exact ⟨_, hn⟩
    | succ h =>
      obtain ⟨n, hn, -⟩ := hH
      exact ⟨_, hn⟩
  obtain ⟨d, hd⟩ := hroot
  have hflag := hw.flag
  rw [hd] at hflag
  refine ⟨rfl, hc, ⟨d, hd, trivial, ?_⟩, ?_⟩
  · show header.leafRoot = d.isLeaf
    cases d with
    | leaf n => exact hflag.mpr ⟨n, rfl⟩
    | inner n =>
      refine Bool.eq_false_of_not_eq_true fun h => ?_
      obtain ⟨m, hm⟩ := hflag.mp h
      simp at hm
  · intro id d' e hd' he
    cases d' with
    | leaf n => exact he.elim
    | inner n =>
      obtain ⟨i, hi, rfl⟩ := he
      exact fun h => hw.root (id, i) ⟨n, hd', hi, h⟩

theorem BeTree.WellFormed.standing {N : BeTree.NodeSizes} {mem : PageId → Option (BeTree.BeNode K V)}
    {created : Set PageId} {header : BeTree.Header} (hw : BeTree.WellFormed N mem header)
    (hc : header.rootID ∈ created) : StandsAt BeTree.layout header.rootID mem created header := by
  have hroot : ∃ d, mem header.rootID = some d ∧ ∀ n, d ≠ .inner n := by
    rcases hw.tree with ⟨n, hn, -⟩ | ⟨h, n, hn, -⟩
    · exact ⟨_, hn, by simp⟩
    · exact ⟨_, hn, by simp⟩
  obtain ⟨d, hd, hmay⟩ := hroot
  have hflag := hw.flag
  rw [hd] at hflag
  refine ⟨rfl, hc, ⟨d, hd, hmay, ?_⟩, ?_⟩
  · show header.rootLeaf = d.isLeaf
    cases d with
    | leaf n => exact hflag.mpr ⟨n, rfl⟩
    | inner n => exact absurd rfl (hmay n)
    | root n =>
      refine Bool.eq_false_of_not_eq_true fun h => ?_
      obtain ⟨m, hm⟩ := hflag.mp h
      simp at hm
  · have hchild : ∀ id (ch : Slots PageId) (n i : ℕ) d', mem id = some d' → d'.childPages = Slots.toList ch (n + 1) →
        i ≤ n → ch i ≠ header.rootID := by
      intro id ch n i d' hd' hpages hi h
      refine hw.root (id, i) ⟨d', hd', ?_⟩
      rw [hpages, List.getElem?_eq_getElem (by rw [Slots.length_toList]; omega), Slots.getElem_toList, h]
    intro id d' e hd' he
    cases d' with
    | leaf n => exact he.elim
    | inner n =>
      obtain ⟨i, hi, rfl⟩ := he
      exact hchild id _ _ i _ hd' rfl hi
    | root n =>
      obtain ⟨i, hi, rfl⟩ := he
      exact hchild id _ _ i _ hd' rfl hi

end StandsAt

section BeTree

variable [BoundedOrder K]

/-- Does the call check the flag? -/
def BeTree.assertsFlag : MapOp K V → Bool
  | .find _ => false
  | _ => true

/-- Every call keeps the guarantee. -/
theorem BeTree.minds_operation {N : BeTree.NodeSizes} {O : BeTree.Unspecified K V} {root : PageId} (hpos : 0 < N.ROOT_N)
    (m : MapOp K V) (s : Sight (BeTree.BeNode K V)) (hs : s.Calm BeTree.layout root) :
    Minds BeTree.layout root (BeTree.operation N O m) { s with due := BeTree.assertsFlag m }
      fun _ s' => s'.Calm BeTree.layout root := by
  have hcalm : ∀ b, ({ s with due := b } : Sight (BeTree.BeNode K V)).Calm BeTree.layout root := fun _ => hs
  cases m with
  | insert key value => exact minds_answer (BeTree.minds_mutation hpos (by simp) (hcalm _))
  | update key value => exact minds_answer (BeTree.minds_mutation hpos (by simp) (hcalm _))
  | erase key => exact minds_answer (BeTree.minds_mutation hpos (by simp) (hcalm _))
  | find key => exact minds_answer (BeTree.minds_find (hcalm _) rfl)

/-- Whatever calls the threads make on a B-tree or a Bε-tree, and in whatever order their commands go: the root
page is written only below its exclusive latch, and the asserts that compare the flag with it hold. -/
theorem root_latched (N : BTree.NodeSizes) (M : BeTree.NodeSizes) (O : BeTree.Unspecified K V)
    (hM : M.ROOT_N % 2 = 1) :
    (∀ (mem : PageId → Option (BTree.BNode K V)) created header, BTree.WellFormed N mem header →
      header.rootID ∈ created → ∀ (op : T → MapOp K V) s,
      Pool.Reachable (Latched.rules (BTree.call N) BTree.assertsFlag)
        (Latched.started (BTree.call N) BTree.assertsFlag mem created header op) s →
      RootSafe BTree.layout header.rootID s) ∧
    (∀ (mem : PageId → Option (BeTree.BeNode K V)) created header, BeTree.WellFormed M mem header →
      header.rootID ∈ created → ∀ (op : T → MapOp K V) s,
      Pool.Reachable (Latched.rules (BeTree.operation M O) BeTree.assertsFlag)
        (Latched.started (BeTree.operation M O) BeTree.assertsFlag mem created header op) s →
      RootSafe BeTree.layout header.rootID s) := by
  refine ⟨?_, ?_⟩
  · intro mem created header hw hc op s hr
    exact rootSafe_of_calls BTree.minds_call (hw.standing hc) hr
  · intro mem created header hw hc op s hr
    exact rootSafe_of_calls (BeTree.minds_operation (by omega)) (hw.standing hc) hr

/-- The page of a tree without entries. -/
def onlyPage {D : Type} (d : D) (id : PageId) : Option D := if id = 0 then some d else none

omit [DecidableEq V] [Add V] [BoundedOrder K] in
theorem BTree.wellFormed_onlyPage (N : BTree.NodeSizes) :
    BTree.WellFormed N (onlyPage (BTree.BNode.fresh (K := K) (V := V) true)) {} := by
  refine ⟨⟨fun _ => ⟨_, rfl⟩, fun _ => rfl⟩, ⟨0, _, rfl, ?_, Nat.zero_le _, ?_⟩, ?_, ?_⟩
  · intro i j _ hj
    cases hj
  · intro i hi
    cases hi
  · intro id hid hne
    exact absurd (if_neg hne) hid
  · rintro ⟨id, i⟩ ⟨n, hn, -⟩
    simp only [onlyPage] at hn
    split at hn
    · cases hn
    · cases hn

omit [DecidableEq V] [Add V] [BoundedOrder K] [Inhabited K] [Inhabited V] in
theorem BeTree.wellFormed_onlyPage (N : BeTree.NodeSizes) (L : BeTree.Leftover K V) :
    BeTree.WellFormed N (onlyPage (BeTree.BeNode.leaf (BeTree.BeLeafNode.fresh L))) {} := by
  refine ⟨⟨fun _ => ⟨_, rfl⟩, fun _ => rfl⟩, .inl ⟨_, rfl, ?_, Nat.zero_le _, ?_⟩, ?_, ?_, ?_⟩
  · intro i j _ hj
    cases hj
  · intro i hi
    cases hi
  · intro id n hn
    simp only [onlyPage] at hn
    split at hn
    · cases hn
    · cases hn
  · intro id hid hne
    exact absurd (if_neg hne) hid
  · rintro ⟨id, i⟩ ⟨d, hd, hi⟩
    simp only [onlyPage] at hd
    split at hd
    · obtain rfl := Option.some.inj hd
      cases hi
    · cases hd

/-- Two threads are about to insert into a B-tree without entries; the first has read the flag and latched the
root page.  And two threads that are about to insert into a Bε-tree. -/
theorem root_latched_twoThreads :
    (∃ s, Pool.Reachable (Latched.rules (BTree.call ⟨2, 3, le_rfl, le_rfl, rfl⟩) BTree.assertsFlag)
        (Latched.started (BTree.call ⟨2, 3, le_rfl, le_rfl, rfl⟩) BTree.assertsFlag
          (onlyPage (BTree.BNode.fresh (K := Fin 8) (V := ℕ) true)) {0} {} fun _ : Bool => .insert 1 5) s ∧
      s.world.latch 0 true = some true ∧ RootSafe BTree.layout 0 s) ∧
    RootSafe BeTree.layout 0 (Latched.started (BeTree.operation .smallest (.basic (Fin 8) ℕ)) BeTree.assertsFlag
      (onlyPage (BeTree.BeNode.leaf (BeTree.BeLeafNode.fresh default))) {0} {} fun _ : Bool => .insert 1 5) := by
  have h := @root_latched (Fin 8) ℕ Bool _ _ _ _ _ _ _ ⟨2, 3, le_rfl, le_rfl, rfl⟩ .smallest (.basic (Fin 8) ℕ) rfl
  have hzero : (0 : PageId) ∈ ({0} : Set PageId) := rfl
  let R := Latched.rules (T := Bool) (BTree.call (K := Fin 8) (V := ℕ) ⟨2, 3, le_rfl, le_rfl, rfl⟩) BTree.assertsFlag
  have hstart : Pool.Reachable R _ (Latched.started (BTree.call ⟨2, 3, le_rfl, le_rfl, rfl⟩) BTree.assertsFlag
      (onlyPage (BTree.BNode.fresh true)) {0} {} fun _ => .insert 1 5) := .start
  have hlatched := (hstart.step (.command true rfl ⟨rfl, rfl⟩)).step
    (.command true (b := ()) rfl ⟨true, rfl, ⟨rfl, fun u _ => .inl rfl⟩, rfl⟩)
  exact ⟨⟨_, hlatched, rfl, h.1 _ _ _ (BTree.wellFormed_onlyPage _) hzero _ _ hlatched⟩,
    h.2 _ _ _ (BeTree.wellFormed_onlyPage _ _) hzero _ _ .start⟩

end BeTree

end BEpsilon
