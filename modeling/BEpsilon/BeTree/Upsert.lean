import BEpsilon.Lib.Keyed
import BEpsilon.Lib.Levels

/-!
# BEpsilon.BeTree.Upsert — the messages of the Bε-tree

`Upsert` with its order, `squashUpserts` and `mergeUpserts` of `BeTree.h`, and what a message does to
the value of its key.  Squashing two messages of one key acts as the older one followed by the newer
one; merging two sorted ranges squashes the messages of the keys that they share.
-/

namespace BEpsilon.BeTree

open Keyed

inductive UpsertType : Type
  | INSERT
  | UPDATE
  | DELETE
  | INVALID
  deriving DecidableEq

structure Upsert (K V : Type) where
  key : K
  value : V
  /-- `std::uint64_t` -/
  timeStamp : ℕ := UInt64.size - 1
  type : UpsertType := .INVALID

instance {K V : Type} [Inhabited K] [Inhabited V] : Inhabited (Upsert K V) :=
  ⟨{ key := default, value := default }⟩

namespace Upsert

variable {K V : Type} [LinearOrder K]

/-- `operator<`: first by key and then by time stamp. -/
def lt (a b : Upsert K V) : Bool :=
  if a.key = b.key then a.timeStamp < b.timeStamp else a.key < b.key

omit [LinearOrder K] in
/-- What the message does to the value of its key. -/
def effect [Add V] (u : Upsert K V) (o : Option V) : Option V :=
  match u.type with
  | .INSERT => some u.value
  | .UPDATE => o.map (· + u.value)
  | .DELETE => none
  | .INVALID => o

omit [LinearOrder K] in
/-- A message for the key `k`, stamped at or before `T k`. -/
structure For (T : K → ℕ) (k : K) (u : Upsert K V) : Prop where
  key_eq : u.key = k
  valid : u.type ≠ .INVALID
  stamp_le : u.timeStamp ≤ T k

end Upsert

section Squash

variable {K V : Type} [LinearOrder K] [Add V]

/-- The cases of `squashUpserts`, the older message first. -/
def squashOrdered (upsertA upsertB : Upsert K V) : Upsert K V :=
  match upsertA.type, upsertB.type with
  | .INSERT, .INSERT => upsertB
  | .INSERT, .UPDATE =>
    { upsertA with timeStamp := upsertB.timeStamp, value := upsertA.value + upsertB.value }
  | .INSERT, .DELETE => upsertB
  | .UPDATE, .INSERT => upsertB
  | .UPDATE, .UPDATE => { upsertB with value := upsertA.value + upsertB.value }
  | .UPDATE, .DELETE => upsertB
  | .DELETE, .INSERT => upsertB
  | .DELETE, .UPDATE => upsertA
  | .DELETE, .DELETE => upsertB
  | _, _ => upsertA

/-- Squashes two upserts into one. -/
def squashUpserts (upsertA upsertB : Upsert K V) : Upsert K V :=
  if upsertB.lt upsertA then squashOrdered upsertB upsertA else squashOrdered upsertA upsertB

/-- Merge-squashes two upsert ranges. -/
def mergeUpserts : List (Upsert K V) → List (Upsert K V) → List (Upsert K V)
  | [], second => second
  | first, [] => first
  | a :: first, b :: second =>
    if a.key = b.key then squashUpserts a b :: mergeUpserts first second
    else if b.lt a then b :: mergeUpserts (a :: first) second
    else a :: mergeUpserts first (b :: second)
termination_by first second => first.length + second.length

variable {a b u : Upsert K V} {k : K} {T : K → ℕ} {as bs : List (Upsert K V)}

omit [Add V] in
theorem lt_iff_timeStamp (h : a.key = b.key) : a.lt b = true ↔ a.timeStamp < b.timeStamp := by
  simp [Upsert.lt, h]

theorem squashUpserts_of_lt (h : a.key = b.key) (ht : a.timeStamp < b.timeStamp) :
    squashUpserts a b = squashOrdered a b := by
  rw [squashUpserts, if_neg]
  rw [lt_iff_timeStamp h.symm]
  exact ht.asymm

theorem squashUpserts_of_gt (h : a.key = b.key) (ht : b.timeStamp < a.timeStamp) :
    squashUpserts a b = squashOrdered b a := by
  rw [squashUpserts, if_pos ((lt_iff_timeStamp h.symm).mpr ht)]

omit [LinearOrder K] in
theorem squashOrdered_key (h : a.key = b.key) : (squashOrdered a b).key = a.key := by
  unfold squashOrdered
  cases a.type <;> cases b.type <;> simp [h]

omit [LinearOrder K] in
theorem squashOrdered_for (ha : a.For T k) (hb : b.For T k) : (squashOrdered a b).For T k := by
  obtain ⟨hak, ha, hat⟩ := ha
  obtain ⟨hbk, hb, hbt⟩ := hb
  refine ⟨(squashOrdered_key (hak.trans hbk.symm)).trans hak, ?_, ?_⟩
  · unfold squashOrdered
    cases ha' : a.type <;> cases hb' : b.type <;> simp_all
  · unfold squashOrdered
    cases a.type <;> cases b.type <;> simp [hat, hbt]

omit [LinearOrder K] in
theorem squashOrdered_stamp (ht : a.timeStamp ≤ b.timeStamp) :
    a.timeStamp ≤ (squashOrdered a b).timeStamp ∧ (squashOrdered a b).timeStamp ≤ b.timeStamp := by
  unfold squashOrdered
  cases a.type <;> cases b.type <;> simp [ht]

omit [LinearOrder K] in
/-- The older message acts first. -/
theorem squashOrdered_effect [Std.Associative (α := V) (· + ·)] (ha : a.type ≠ .INVALID)
    (hb : b.type ≠ .INVALID) (o : Option V) :
    (squashOrdered a b).effect o = b.effect (a.effect o) := by
  unfold squashOrdered
  cases ha' : a.type <;> cases hb' : b.type <;> simp_all [Upsert.effect]
  -- two updates
  cases o with
  | none => rfl
  | some o =>
    have h : o + a.value + b.value = o + (a.value + b.value) := Std.Associative.assoc _ _ _
    exact congrArg some h.symm

theorem squashUpserts_for (ha : a.For T k) (hb : b.For T k) : (squashUpserts a b).For T k := by
  unfold squashUpserts
  split
  · exact squashOrdered_for hb ha
  · exact squashOrdered_for ha hb

/-- Squashing keeps the order of the stamps, whatever the values are. -/
theorem upsertLaws_order (T : K → ℕ) :
    MessageLaws (Upsert.For (K := K) (V := V) T) (fun _ (s : Unit) => s) Upsert.timeStamp
      squashUpserts where
  squash_good ha hb := squashUpserts_for ha hb
  effect_squash _ _ _ _ := rfl
  le_stamp {k a b} ha hb ht := by
    rw [squashUpserts_of_lt (ha.key_eq.trans hb.key_eq.symm) ht]
    exact (squashOrdered_stamp ht.le).1
  stamp_le {k a b} ha hb ht := by
    rw [squashUpserts_of_lt (ha.key_eq.trans hb.key_eq.symm) ht]
    exact (squashOrdered_stamp ht.le).2

/-- Squashing is sound where `+` is associative. -/
theorem upsertLaws [Std.Associative (α := V) (· + ·)] (T : K → ℕ) :
    MessageLaws (Upsert.For (K := K) (V := V) T) Upsert.effect Upsert.timeStamp squashUpserts where
  squash_good := (upsertLaws_order T).squash_good
  effect_squash {k a b} o ha hb ht := by
    rw [squashUpserts_of_lt (ha.key_eq.trans hb.key_eq.symm) ht, squashOrdered_effect ha.valid hb.valid]
  le_stamp := (upsertLaws_order T).le_stamp
  stamp_le := (upsertLaws_order T).stamp_le

theorem squashUpserts_valid (ha : a.type ≠ .INVALID) (hb : b.type ≠ .INVALID) :
    (squashUpserts a b).type ≠ .INVALID := by
  have h : ∀ {a b : Upsert K V}, a.type ≠ .INVALID → b.type ≠ .INVALID →
      (squashOrdered a b).type ≠ .INVALID := by
    intro a b ha hb
    unfold squashOrdered
    cases ha' : a.type <;> cases hb' : b.type <;> simp_all
  unfold squashUpserts
  split
  · exact h hb ha
  · exact h ha hb

theorem squashUpserts_key (h : a.key = b.key) : (squashUpserts a b).key = a.key := by
  unfold squashUpserts
  split
  · rw [squashOrdered_key h.symm, h]
  · exact squashOrdered_key h

theorem squashUpserts_insert (h : (squashUpserts a b).type = .INSERT) : a.type = .INSERT ∨ b.type = .INSERT := by
  have hordered : ∀ {a b : Upsert K V}, (squashOrdered a b).type = .INSERT → a.type = .INSERT ∨ b.type = .INSERT := by
    intro a b h
    unfold squashOrdered at h
    cases ha : a.type <;> cases hb : b.type <;> simp_all
  unfold squashUpserts at h
  split at h
  · exact (hordered h).symm
  · exact hordered h

theorem mergeUpserts_nil : mergeUpserts as [] = as := by
  cases as <;> simp [mergeUpserts]

/-- The merged range has messages of the two ranges and squashed ones. -/
theorem mem_mergeUpserts (hu : u ∈ mergeUpserts as bs) :
    u ∈ as ∨ u ∈ bs ∨ ∃ a ∈ as, ∃ b ∈ bs, a.key = b.key ∧ u = squashUpserts a b := by
  fun_induction mergeUpserts as bs with
  | case1 bs => exact .inr (.inl hu)
  | case2 as => exact .inl hu
  | case3 a as b bs h ih =>
    rcases List.mem_cons.mp hu with rfl | hu
    · exact .inr (.inr ⟨a, List.mem_cons_self, b, List.mem_cons_self, h, rfl⟩)
    · rcases ih hu with hu | hu | ⟨x, hx, y, hy, e⟩
      · exact .inl (List.mem_cons_of_mem _ hu)
      · exact .inr (.inl (List.mem_cons_of_mem _ hu))
      · exact .inr (.inr ⟨x, List.mem_cons_of_mem _ hx, y, List.mem_cons_of_mem _ hy, e⟩)
  | case4 a as b bs _ _ ih =>
    rcases List.mem_cons.mp hu with rfl | hu
    · exact .inr (.inl List.mem_cons_self)
    · rcases ih hu with hu | hu | ⟨x, hx, y, hy, e⟩
      · exact .inl hu
      · exact .inr (.inl (List.mem_cons_of_mem _ hu))
      · exact .inr (.inr ⟨x, hx, y, List.mem_cons_of_mem _ hy, e⟩)
  | case5 a as b bs _ _ ih =>
    rcases List.mem_cons.mp hu with rfl | hu
    · exact .inl List.mem_cons_self
    · rcases ih hu with hu | hu | ⟨x, hx, y, hy, e⟩
      · exact .inl (List.mem_cons_of_mem _ hu)
      · exact .inr (.inl hu)
      · exact .inr (.inr ⟨x, List.mem_cons_of_mem _ hx, y, hy, e⟩)

/-- A key of the merged range is a key of one of the two. -/
theorem mergeUpserts_key (hu : u ∈ mergeUpserts as bs) :
    (∃ a ∈ as, a.key = u.key) ∨ ∃ b ∈ bs, b.key = u.key := by
  rcases mem_mergeUpserts hu with hu | hu | ⟨a, ha, b, -, h, rfl⟩
  · exact .inl ⟨u, hu, rfl⟩
  · exact .inr ⟨u, hu, rfl⟩
  · exact .inl ⟨a, ha, (squashUpserts_key h).symm⟩

theorem mergeUpserts_valid (ha : ∀ a ∈ as, a.type ≠ .INVALID) (hb : ∀ b ∈ bs, b.type ≠ .INVALID)
    (hu : u ∈ mergeUpserts as bs) : u.type ≠ .INVALID := by
  rcases mem_mergeUpserts hu with hu | hu | ⟨a, hua, b, hub, -, rfl⟩
  · exact ha u hu
  · exact hb u hu
  · exact squashUpserts_valid (ha a hua) (hb b hub)

/-- An INSERT of the merged range carries the key of an INSERT. -/
theorem mergeUpserts_insert (hu : u ∈ mergeUpserts as bs) (hi : u.type = .INSERT) :
    ∃ x, (x ∈ as ∨ x ∈ bs) ∧ x.key = u.key ∧ x.type = .INSERT := by
  rcases mem_mergeUpserts hu with hu | hu | ⟨a, ha, b, hb, h, rfl⟩
  · exact ⟨u, .inl hu, rfl, hi⟩
  · exact ⟨u, .inr hu, rfl, hi⟩
  · have hkey := squashUpserts_key h
    rcases squashUpserts_insert hi with hi | hi
    · exact ⟨a, .inl ha, hkey.symm, hi⟩
    · exact ⟨b, .inr hb, h.symm.trans hkey.symm, hi⟩

/-- The merged range is sorted. -/
theorem mergeUpserts_sorted (ha : KeysSorted Upsert.key as) (hb : KeysSorted Upsert.key bs) :
    KeysSorted Upsert.key (mergeUpserts as bs) := by
  fun_induction mergeUpserts as bs with
  | case1 bs => exact hb
  | case2 as => exact ha
  | case3 a as b bs h ih =>
    obtain ⟨hla, ha⟩ := keysSorted_cons.mp ha
    obtain ⟨hlb, hb⟩ := keysSorted_cons.mp hb
    refine keysSorted_cons.mpr ⟨fun u hu => ?_, ih ha hb⟩
    rw [squashUpserts_key h]
    rcases mergeUpserts_key hu with ⟨x, hx, e⟩ | ⟨x, hx, e⟩
    · exact e ▸ hla x hx
    · exact e ▸ h ▸ hlb x hx
  | case4 a as b bs h hlt ih =>
    obtain ⟨hlb, hb'⟩ := keysSorted_cons.mp hb
    have hba : b.key < a.key := by simpa [Upsert.lt, Ne.symm h] using hlt
    refine keysSorted_cons.mpr ⟨fun u hu => ?_, ih ha hb'⟩
    rcases mergeUpserts_key hu with ⟨x, hx, e⟩ | ⟨x, hx, e⟩
    · rcases List.mem_cons.mp hx with rfl | hx
      · exact e ▸ hba
      · exact e ▸ hba.trans ((keysSorted_cons.mp ha).1 x hx)
    · exact e ▸ hlb x hx
  | case5 a as b bs h hlt ih =>
    obtain ⟨hla, ha'⟩ := keysSorted_cons.mp ha
    have hab : a.key < b.key := by
      refine lt_of_le_of_ne (not_lt.mp fun hc => hlt ?_) h
      simpa [Upsert.lt, Ne.symm h] using hc
    refine keysSorted_cons.mpr ⟨fun u hu => ?_, ih ha' hb⟩
    rcases mergeUpserts_key hu with ⟨x, hx, e⟩ | ⟨x, hx, e⟩
    · exact e ▸ hla x hx
    · rcases List.mem_cons.mp hx with rfl | hx
      · exact e ▸ hab
      · exact e ▸ hab.trans ((keysSorted_cons.mp hb).1 x hx)

/-- The merged range has the squashed messages of the shared keys and the messages of the others. -/
theorem seek_mergeUpserts (ha : KeysSorted Upsert.key as) (hb : KeysSorted Upsert.key bs) (k : K) :
    seek Upsert.key (mergeUpserts as bs) k =
      Option.merge squashUpserts (seek Upsert.key as k) (seek Upsert.key bs k) := by
  fun_induction mergeUpserts as bs with
  | case1 bs => simp
  | case2 as => simp
  | case3 a as b bs h ih =>
    rw [seek_cons, squashUpserts_key h, seek_cons, seek_cons, ← h]
    split
    · rfl
    · exact ih (keysSorted_cons.mp ha).2 (keysSorted_cons.mp hb).2
  | case4 a as b bs h hlt ih =>
    have hba : b.key < a.key := by simpa [Upsert.lt, Ne.symm h] using hlt
    rw [seek_cons, seek_cons (l := bs)]
    split
    next hk =>
      rw [ha.seek_lt (hk ▸ hba)]
      rfl
    next => exact ih ha (keysSorted_cons.mp hb).2
  | case5 a as b bs h hlt ih =>
    have hab : a.key < b.key := by
      refine lt_of_le_of_ne (not_lt.mp fun hc => hlt ?_) h
      simpa [Upsert.lt, Ne.symm h] using hc
    rw [seek_cons, seek_cons (l := as)]
    split
    next hk =>
      rw [hb.seek_lt (hk ▸ hab)]
      rfl
    next => exact ih (keysSorted_cons.mp ha).2 hb

end Squash

end BEpsilon.BeTree
