import Mathlib.Logic.Function.Basic
import Mathlib.Data.Nat.Basic
import Mathlib.Tactic.Common

/-!
# BEpsilon.Lib.Levels — values below levels of waiting messages

A value `L k` for each key lies below levels of messages: `B h k` is the message for `k` that waits at
level `h`, if there is one.  The content of a key is its value after its messages, the lowest first.
A message carries a stamp, and two messages for one key can be squashed into one that acts as the one
with the smaller stamp followed by the other.  Where the stamps of each key increase with the level,
pushing messages one level down and settling them into the values leave the content as it is, and
posting a newer message on top applies it.
-/

namespace BEpsilon

/-- Squashing two messages for one key acts as the older message followed by the newer one. -/
structure MessageLaws {K M S : Type} (good : K → M → Prop) (effect : M → S → S) (stamp : M → ℕ)
    (squash : M → M → M) : Prop where
  squash_good : ∀ {k a b}, good k a → good k b → good k (squash a b)
  effect_squash : ∀ {k a b} (s : S), good k a → good k b → stamp a < stamp b →
    effect (squash a b) s = effect b (effect a s)
  le_stamp : ∀ {k a b}, good k a → good k b → stamp a < stamp b → stamp a ≤ stamp (squash a b)
  stamp_le : ∀ {k a b}, good k a → good k b → stamp a < stamp b → stamp (squash a b) ≤ stamp b

/-- A chain of messages with brackets: what is squashed with what. -/
inductive Bracketing (M : Type) : Type
  | one (m : M)
  | pair (older newer : Bracketing M)

namespace Bracketing

variable {K M S : Type}

/-- The chain without its brackets. -/
def chain : Bracketing M → List M
  | one m => [m]
  | pair older newer => older.chain ++ newer.chain

/-- The message that is left when the chain is squashed along its brackets. -/
def squashed (squash : M → M → M) : Bracketing M → M
  | one m => m
  | pair older newer => squash (older.squashed squash) (newer.squashed squash)

variable {good : K → M → Prop} {effect : M → S → S} {stamp : M → ℕ} {squash : M → M → M}
  {t : Bracketing M} {k : K}

/-- Along any brackets a chain acts as its messages one after another; the stamp that is left lies
between two stamps of the chain. -/
theorem squashed_spec (hM : MessageLaws good effect stamp squash) (hg : ∀ m ∈ t.chain, good k m)
    (hs : t.chain.Pairwise fun a b => stamp a < stamp b) :
    good k (t.squashed squash) ∧
      (∃ m ∈ t.chain, stamp m ≤ stamp (t.squashed squash)) ∧
      (∃ m ∈ t.chain, stamp (t.squashed squash) ≤ stamp m) ∧
      ∀ s, effect (t.squashed squash) s = t.chain.foldl (fun s m => effect m s) s := by
  induction t with
  | one m =>
    have hm : m ∈ (one m).chain := List.mem_singleton.mpr rfl
    exact ⟨hg m hm, ⟨m, hm, le_rfl⟩, ⟨m, hm, le_rfl⟩, fun _ => rfl⟩
  | pair older newer iho ihn =>
    obtain ⟨hso, hsn, hlt⟩ := List.pairwise_append.mp hs
    obtain ⟨hgo, ⟨a, ha, hao⟩, ⟨b, hb, hob⟩, heo⟩ := iho (fun m hm => hg m (List.mem_append_left _ hm)) hso
    obtain ⟨hgn, ⟨c, hc, hcn⟩, ⟨d, hd, hnd⟩, hen⟩ := ihn (fun m hm => hg m (List.mem_append_right _ hm)) hsn
    have hst : stamp (older.squashed squash) < stamp (newer.squashed squash) :=
      lt_of_le_of_lt hob (lt_of_lt_of_le (hlt b hb c hc) hcn)
    refine ⟨hM.squash_good hgo hgn, ⟨a, List.mem_append_left _ ha, le_trans hao (hM.le_stamp hgo hgn hst)⟩,
      ⟨d, List.mem_append_right _ hd, le_trans (hM.stamp_le hgo hgn hst) hnd⟩, fun s => ?_⟩
    rw [chain, List.foldl_append, ← heo, ← hen]
    exact hM.effect_squash s hgo hgn hst

end Bracketing

namespace Levels

variable {K M S : Type}

/-- What the messages of one level do. -/
def act (effect : M → S → S) : Option M → S → S
  | some m, s => effect m s
  | none, s => s

/-- The values after the messages of the levels `1` to `n`. -/
def content (effect : M → S → S) (B : ℕ → K → Option M) (L : K → S) : ℕ → K → S
  | 0, k => L k
  | n + 1, k => act effect (B (n + 1) k) (content effect B L n k)

/-- Every message waits for its key, and the stamps of a key increase with the level. -/
structure Ordered (good : K → M → Prop) (stamp : M → ℕ) (B : ℕ → K → Option M) : Prop where
  all_good : ∀ h k m, B h k = some m → good k m
  stamps : ∀ k h' h m' m, h' < h → B h' k = some m' → B h k = some m → stamp m' < stamp m

/-- The messages for the keys of `P` that wait at level `h + 1` are merged into level `h`. -/
def push (squash : M → M → M) (B : ℕ → K → Option M) (h : ℕ) (P : K → Bool) : ℕ → K → Option M :=
  fun g k =>
    if P k then
      if g = h + 1 then none
      else if g = h then Option.merge squash (B h k) (B (h + 1) k) else B g k
    else B g k

/-- The messages for the keys of `P` leave level `1`. -/
def leave (B : ℕ → K → Option M) (P : K → Bool) : ℕ → K → Option M :=
  fun g k => if g = 1 ∧ P k = true then none else B g k

/-- The values of the keys of `P` take the messages of level `1`. -/
def settle (effect : M → S → S) (B : ℕ → K → Option M) (L : K → S) (P : K → Bool) : K → S :=
  fun k => if P k then act effect (B 1 k) (L k) else L k

/-- A new message comes to level `h`. -/
def post [DecidableEq K] (squash : M → M → M) (B : ℕ → K → Option M) (h : ℕ) (key : K) (m : M) :
    ℕ → K → Option M :=
  fun g k => if g = h ∧ k = key then Option.merge squash (B h key) (some m) else B g k

variable {good : K → M → Prop} {effect : M → S → S} {stamp : M → ℕ} {squash : M → M → M}
  {B B' : ℕ → K → Option M} {L L' : K → S} {h n : ℕ} {k : K} {P : K → Bool}

/-- The content of a key depends on its own messages and its own value. -/
theorem content_congr (hB : ∀ g, 1 ≤ g → g ≤ n → B' g k = B g k) (hL : L' k = L k) :
    content effect B' L' n k = content effect B L n k := by
  induction n with
  | zero => exact hL
  | succ n ih =>
    rw [content, content, hB (n + 1) (by omega) le_rfl, ih fun g h₁ h₂ => hB g h₁ (by omega)]

/-- Levels above which nothing waits do not count. -/
theorem content_above {m : ℕ} (hn : n ≤ m) (hB : ∀ g, n < g → B g k = none) :
    content effect B L m k = content effect B L n k := by
  induction m, hn using Nat.le_induction with
  | base => rfl
  | succ m hm ih => rw [content, hB (m + 1) (by omega), ih]; rfl

section Laws

variable (hM : MessageLaws good effect stamp squash)
include hM

theorem act_merge {a b : Option M} (ha : ∀ m ∈ a, good k m) (hb : ∀ m ∈ b, good k m)
    (hab : ∀ m ∈ a, ∀ m' ∈ b, stamp m < stamp m') (s : S) :
    act effect (Option.merge squash a b) s = act effect b (act effect a s) := by
  cases a with
  | none => cases b <;> rfl
  | some a =>
    cases b with
    | none => rfl
    | some b => exact hM.effect_squash s (ha a rfl) (hb b rfl) (hab a rfl b rfl)

theorem merge_good {a b : Option M} (ha : ∀ m ∈ a, good k m) (hb : ∀ m ∈ b, good k m) :
    ∀ m ∈ Option.merge squash a b, good k m := by
  cases a with
  | none =>
    cases b with
    | none => simp
    | some b => simpa using hb
  | some a =>
    cases b with
    | none => simpa using ha
    | some b => simpa using hM.squash_good (ha a rfl) (hb b rfl)

/-- The stamp of a merged message lies between the stamps of its parts. -/
theorem merge_stamp {a b : Option M} (ha : ∀ m ∈ a, good k m) (hb : ∀ m ∈ b, good k m)
    (hab : ∀ m ∈ a, ∀ m' ∈ b, stamp m < stamp m') {m : M} (hm : m ∈ Option.merge squash a b) :
    (∃ m' ∈ a.or b, stamp m' ≤ stamp m) ∧ ∃ m' ∈ b.or a, stamp m ≤ stamp m' := by
  cases a with
  | none =>
    cases b with
    | none => simp at hm
    | some b =>
      obtain rfl : b = m := by simpa using hm
      exact ⟨⟨b, rfl, le_rfl⟩, b, rfl, le_rfl⟩
  | some a =>
    cases b with
    | none =>
      obtain rfl : a = m := by simpa using hm
      exact ⟨⟨a, rfl, le_rfl⟩, a, rfl, le_rfl⟩
    | some b =>
      obtain rfl : squash a b = m := by simpa using hm
      have hlt := hab a rfl b rfl
      exact ⟨⟨a, rfl, hM.le_stamp (ha a rfl) (hb b rfl) hlt⟩, b, rfl,
        hM.stamp_le (ha a rfl) (hb b rfl) hlt⟩

/-! ### Pushing messages down -/

theorem content_push (hB : Ordered good stamp B) (hh : 1 ≤ h) (hn : h + 1 ≤ n) :
    content effect (push squash B h P) L n k = content effect B L n k := by
  induction n, hn using Nat.le_induction with
  | base =>
    obtain ⟨g, rfl⟩ : ∃ g, h = g + 1 := ⟨h - 1, by omega⟩
    have hlow : content effect (push squash B (g + 1) P) L g k = content effect B L g k :=
      content_congr (fun g' h₁ h₂ => by
        unfold push
        rw [if_neg (show g' ≠ g + 1 + 1 by omega), if_neg (show g' ≠ g + 1 by omega)]
        split <;> rfl) rfl
    rw [content, content, content, content, hlow]
    cases hP : P k with
    | false => simp [push, hP]
    | true =>
      have e₁ : push squash B (g + 1) P (g + 1 + 1) k = none := by simp [push, hP]
      have e₂ : push squash B (g + 1) P (g + 1) k =
          Option.merge squash (B (g + 1) k) (B (g + 1 + 1) k) := by simp [push, hP]
      rw [e₁, e₂, act_merge hM (fun m hm => hB.all_good _ _ _ hm) (fun m hm => hB.all_good _ _ _ hm)
        fun m hm m' hm' => hB.stamps k _ _ m m' (by omega) hm hm']
      rfl
  | succ n hn ih =>
    rw [content, content, ih]
    congr 1
    unfold push
    rw [if_neg (show n + 1 ≠ h + 1 by omega), if_neg (show n + 1 ≠ h by omega)]
    split <;> rfl

theorem ordered_push (hB : Ordered good stamp B) : Ordered good stamp (push squash B h P) := by
  -- a message comes from one of the two levels, and its stamp lies between theirs
  have hfrom : ∀ g k m, push squash B h P g k = some m →
      (∃ g' m', (g' = g ∨ g = h ∧ g' = h + 1) ∧ B g' k = some m' ∧ stamp m' ≤ stamp m) ∧
      (∃ g' m', (g' = g ∨ g = h ∧ g' = h + 1 ∧ P k = true) ∧ B g' k = some m' ∧
        stamp m ≤ stamp m') := by
    intro g k m hm
    unfold push at hm
    split at hm
    next hP =>
      split at hm
      · simp at hm
      · split at hm
        next hg =>
          subst hg
          obtain ⟨⟨a, ha, hle⟩, b, hb, hge⟩ := merge_stamp hM (k := k)
            (fun m hm => hB.all_good _ _ _ hm) (fun m hm => hB.all_good _ _ _ hm)
            (fun m hm m' hm' => hB.stamps k g (g + 1) m m' (by omega) hm hm') hm
          refine ⟨?_, ?_⟩
          · rcases Option.or_eq_some_iff.mp ha with h | ⟨-, h⟩
            · exact ⟨g, a, .inl rfl, h, hle⟩
            · exact ⟨g + 1, a, .inr ⟨rfl, rfl⟩, h, hle⟩
          · rcases Option.or_eq_some_iff.mp hb with h | ⟨-, h⟩
            · exact ⟨g + 1, b, .inr ⟨rfl, rfl, hP⟩, h, hge⟩
            · exact ⟨g, b, .inl rfl, h, hge⟩
        next => exact ⟨⟨g, m, .inl rfl, hm, le_rfl⟩, g, m, .inl rfl, hm, le_rfl⟩
    next => exact ⟨⟨g, m, .inl rfl, hm, le_rfl⟩, g, m, .inl rfl, hm, le_rfl⟩
  refine ⟨fun g k m hm => ?_, fun k g' g m' m hlt hm' hm => ?_⟩
  · unfold push at hm
    split at hm
    · split at hm
      · simp at hm
      · split at hm
        · exact merge_good hM (fun m hm => hB.all_good _ _ _ hm) (fun m hm => hB.all_good _ _ _ hm) m hm
        · exact hB.all_good _ _ _ hm
    · exact hB.all_good _ _ _ hm
  · obtain ⟨-, a, m₁, ha, hB₁, hle⟩ := hfrom g' k m' hm'
    obtain ⟨⟨b, m₂, hb, hB₂, hge⟩, -⟩ := hfrom g k m hm
    refine lt_of_le_of_lt hle (lt_of_lt_of_le (hB.stamps k a b m₁ m₂ ?_ hB₁ hB₂) hge)
    rcases ha with rfl | ⟨rfl, rfl, hP⟩
    · rcases hb with rfl | ⟨rfl, rfl⟩ <;> omega
    · rcases hb with rfl | ⟨rfl, rfl⟩
      · -- nothing is left at the level above
        by_contra hc
        obtain rfl : b = g' + 1 := by omega
        simp [push, hP] at hm
      · omega

omit hM

/-! ### Settling messages -/

theorem content_settle (hn : 1 ≤ n) :
    content effect (leave B P) (settle effect B L P) n k = content effect B L n k := by
  induction n, hn using Nat.le_induction with
  | base =>
    cases hP : P k <;> simp [content, leave, settle, act, hP]
  | succ n hn ih =>
    rw [content, content, ih]
    congr 1
    simp [leave, show n ≠ 0 by omega]

theorem ordered_leave (hB : Ordered good stamp B) : Ordered good stamp (leave B P) := by
  have hle : ∀ g k m, leave B P g k = some m → B g k = some m := by
    intro g k m hm
    unfold leave at hm
    split at hm
    · simp at hm
    · exact hm
  exact ⟨fun g k m hm => hB.all_good _ _ _ (hle _ _ _ hm), fun k g' g m' m hlt hm' hm =>
    hB.stamps k g' g m' m hlt (hle _ _ _ hm') (hle _ _ _ hm)⟩

/-! ### Posting a message -/

section Post

variable [DecidableEq K] {key : K} {m : M}

theorem post_other (hk : k ≠ key) : post squash B h key m n k = B n k := by
  simp [post, hk]

include hM

/-- A message that is newer than all messages of its key acts after them. -/
theorem content_post (hB : Ordered good stamp B) (hm : good key m)
    (hnew : ∀ g m', B g key = some m' → stamp m' < stamp m) (hh : 1 ≤ h)
    (htop : ∀ g, h < g → B g key = none) (hn : h ≤ n) :
    content effect (post squash B h key m) L n key = effect m (content effect B L n key) := by
  have habove : ∀ g, h < g → post squash B h key m g key = none := fun g hg => by
    simp [post, show g ≠ h by omega, htop g hg]
  rw [content_above hn habove, content_above hn htop]
  obtain ⟨g, rfl⟩ : ∃ g, h = g + 1 := ⟨h - 1, by omega⟩
  have hlow : content effect (post squash B (g + 1) key m) L g key = content effect B L g key :=
    content_congr (fun g' h₁ h₂ => by simp [post, show g' ≠ g + 1 by omega]) rfl
  rw [content, content, hlow]
  have e : post squash B (g + 1) key m (g + 1) key = Option.merge squash (B (g + 1) key) (some m) := by
    simp [post]
  rw [e, act_merge hM (fun a ha => hB.all_good _ _ _ ha) (fun a ha => (Option.mem_some.mp ha) ▸ hm)
    fun a ha b hb => (Option.mem_some.mp hb) ▸ hnew _ a ha]
  rfl

theorem ordered_post (hB : Ordered good stamp B) (hm : good key m)
    (hnew : ∀ g m', B g key = some m' → stamp m' < stamp m) (htop : ∀ g, h < g → B g key = none) :
    Ordered good stamp (post squash B h key m) := by
  have hgood : ∀ a ∈ Option.merge squash (B h key) (some m), good key a :=
    merge_good hM (fun a ha => hB.all_good _ _ _ ha) fun a ha => (Option.mem_some.mp ha) ▸ hm
  refine ⟨fun g k a ha => ?_, fun k g' g a' a hlt ha' ha => ?_⟩
  · unfold post at ha
    split at ha
    next hc => exact hc.2 ▸ hgood a ha
    next => exact hB.all_good _ _ _ ha
  · by_cases hk : k = key
    · subst hk
      by_cases hg : g = h
      · -- the merged message is at least as new as the message it was merged with, or is the new one
        subst hg
        have ha'' : B g' k = some a' := by simpa [post, show g' ≠ g by omega] using ha'
        have hmerge : a ∈ Option.merge squash (B g k) (some m) := by simpa [post] using ha
        obtain ⟨⟨b, hb, hle⟩, -⟩ := merge_stamp hM (fun a ha => hB.all_good _ _ _ ha)
          (fun a ha => (Option.mem_some.mp ha) ▸ hm)
          (fun a ha b hb => (Option.mem_some.mp hb) ▸ hnew _ a ha) hmerge
        refine lt_of_lt_of_le ?_ hle
        rcases Option.or_eq_some_iff.mp hb with h | ⟨-, h⟩
        · exact hB.stamps k g' g a' b hlt ha'' h
        · exact Option.some.inj h ▸ hnew _ a' ha''
      · have ha'' : B g k = some a := by simpa [post, hg] using ha
        by_cases hg' : g' = h
        · subst hg'
          rw [htop g hlt] at ha''
          simp at ha''
        · exact hB.stamps k g' g a' a hlt (by simpa [post, hg'] using ha') ha''
    · rw [post_other hk] at ha ha'
      exact hB.stamps k g' g a' a hlt ha' ha

end Post

end Laws

end Levels

end BEpsilon
