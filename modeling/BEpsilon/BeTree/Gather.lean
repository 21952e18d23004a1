import BEpsilon.BeTree.Structure

/-!
# BEpsilon.BeTree.Gather — the descent of `find`

`find` walks down the path of a key and gathers the updates of the buffers, the deepest one first, until it
meets a message that is no update, or the leaf.  `gatherBelow` says on the levels of waiting messages what it
ends with: a base, or none, and the updates above it.  Adding these to the base, in that order, gives the
content of the key, for any `+`.
-/

namespace BEpsilon.BeTree

open Slots Keyed PageWorld

variable {K V : Type}

/-! ### One buffer -/

section Buffer

variable [LinearOrder K] {n : BeInnerNode K V} {key : K}

/-- From the first message at or above `key` on, the messages for `key` come first. -/
theorem takeWhile_drop_lowerBound (hs : KeysSorted Upsert.key n.upserts.toList) :
    (n.upserts.toList.drop (lowerBound (fun i => (n.upserts.upserts i).key) n.upserts.size key)).takeWhile
        (fun u => u.key = key) = n.upserts.toList.filter fun u => u.key = key := by
  set keys := fun i => (n.upserts.upserts i).key with hkeys
  set first := lowerBound keys n.upserts.size key with hfirst
  have hlen : n.upserts.toList.length = n.upserts.size := length_toList _ _
  have hfirst_le : first ≤ n.upserts.size := lowerBound_le _ _ _
  have hlow : (n.upserts.toList.take first).filter (fun u => u.key = key) = [] := by
    rw [List.filter_eq_nil_iff]
    intro u hu
    obtain ⟨i, hi, rfl⟩ := List.mem_take_iff_getElem.mp hu
    have hlt : keys i < key := lt_of_lt_lowerBound (n := n.upserts.size) (by omega)
    simpa [UpsertBuffer.toList, hkeys] using hlt.ne
  have hhigh : ∀ u ∈ n.upserts.toList.drop first, key ≤ u.key := by
    intro u hu
    obtain ⟨i, hi, rfl⟩ := List.mem_drop_iff_getElem.mp hu
    have hle : key ≤ keys first := le_of_lowerBound_lt (by omega)
    have hmono : keys first ≤ keys (first + i) :=
      (keysSorted_toList.mp hs).weakly first (first + i) (by omega) (by omega)
    simpa [UpsertBuffer.toList] using hle.trans hmono
  rw [(hs.sublist (List.drop_sublist _ _)).takeWhile_eq_filter hhigh]
  conv_rhs => rw [← List.take_append_drop first n.upserts.toList]
  rw [List.filter_append, hlow, List.nil_append]

/-- One buffer of a well-formed node, with no base gathered so far. -/
theorem gather_eq (hs : KeysSorted Upsert.key n.upserts.toList) (updates : List V) :
    gather n key ⟨none, updates⟩ =
      match seek Upsert.key n.upserts.toList key with
      | none => (⟨none, updates⟩, false)
      | some u =>
        match u.type with
        | .INSERT => (⟨some u.value, updates⟩, true)
        | .DELETE => (⟨none, []⟩, true)
        | .UPDATE => (⟨none, u.value :: updates⟩, false)
        | .INVALID => (⟨none, updates⟩, false) := by
  rw [gather]
  dsimp only
  rw [takeWhile_drop_lowerBound hs, hs.distinct.filter_eq]
  cases seek Upsert.key n.upserts.toList key with
  | none => rfl
  | some u => cases hu : u.type <;> simp [gatherMessage, hu]

end Buffer

/-! ### The levels of a path -/

section Levels

/-- What the descent gathers from level `h` on, with the updates of the levels above. -/
def gatherBelow (B : ℕ → K → Option (Upsert K V)) (L : K → Option V) (key : K) : ℕ → List V → Gathered V
  | 0, updates => ⟨L key, updates⟩
  | h + 1, updates =>
    match B (h + 1) key with
    | none => gatherBelow B L key h updates
    | some u =>
      match u.type with
      | .INSERT => ⟨some u.value, updates⟩
      | .DELETE => ⟨none, []⟩
      | .UPDATE => gatherBelow B L key h (u.value :: updates)
      | .INVALID => gatherBelow B L key h updates

variable {B : ℕ → K → Option (Upsert K V)} {L : K → Option V} {key : K} {h : ℕ} {updates : List V}

variable (B L key h updates) in
/-- The base with the updates added is the content, with the updates of the levels above added. -/
theorem gatherBelow_content [Add V] :
    (gatherBelow B L key h updates).currentValue.map
        (fun v => (gatherBelow B L key h updates).accumulatedUpdates.foldl (· + ·) v) =
      (Levels.content Upsert.effect B L h key).map fun v => updates.foldl (· + ·) v := by
  induction h generalizing updates with
  | zero => rfl
  | succ h ih =>
    rw [gatherBelow, Levels.content]
    cases B (h + 1) key with
    | none => exact ih _
    | some u =>
      dsimp only [Levels.act]
      cases hu : u.type with
      | INSERT => simp [Upsert.effect, hu]
      | DELETE => simp [Upsert.effect, hu]
      | INVALID =>
        rw [ih]
        simp [Upsert.effect, hu]
      | UPDATE =>
        rw [ih, Upsert.effect, hu]
        cases Levels.content Upsert.effect B L h key <;> rfl

/-- The messages of the levels from `h` on, the highest first. -/
def messagesBelow (B : ℕ → K → Option (Upsert K V)) (key : K) : ℕ → List (Upsert K V)
  | 0 => []
  | h + 1 => (B (h + 1) key).toList ++ messagesBelow B key h

/-- The first message that is no update, from the top, deletes the key; or there is no message at all, and
below no entry. -/
def SaysAbsent (messages : List (Upsert K V)) (entry : Option V) : Prop :=
  match messages.find? fun u => u.type ≠ .UPDATE with
  | some u => u.type = .DELETE
  | none => messages = [] ∧ entry = none

instance (messages : List (Upsert K V)) (entry : Option V) [DecidableEq V] :
    Decidable (SaysAbsent messages entry) := by
  unfold SaysAbsent
  split
  · infer_instance
  · exact decidable_of_iff (messages.isEmpty = true ∧ entry.isNone = true) (by simp)

variable (L h updates) in
/-- The descent ends without a base and without an update exactly where the levels say that the key is
absent. -/
theorem gatherBelow_nothing (hB : ∀ g u, B g key = some u → u.type ≠ .INVALID) :
    (gatherBelow B L key h updates).currentValue = none ∧
        (gatherBelow B L key h updates).accumulatedUpdates = [] ↔
      SaysAbsent (messagesBelow B key h) (L key) ∧
        ((messagesBelow B key h).find? (fun u => u.type ≠ .UPDATE) = none → updates = []) := by
  induction h generalizing updates with
  | zero => simp [gatherBelow, messagesBelow, SaysAbsent]
  | succ h ih =>
    rw [gatherBelow, messagesBelow]
    cases hu : B (h + 1) key with
    | none => exact ih _
    | some u =>
      dsimp only
      cases ht : u.type with
      | INSERT => simp [SaysAbsent, ht]
      | DELETE => simp [SaysAbsent, ht]
      | INVALID => exact absurd ht (hB _ _ hu)
      | UPDATE =>
        dsimp only
        rw [ih]
        have hfind : ((some u).toList ++ messagesBelow B key h).find? (fun u => u.type ≠ .UPDATE) =
            (messagesBelow B key h).find? fun u => u.type ≠ .UPDATE := by
          simp [ht]
        rw [SaysAbsent, SaysAbsent, hfind]
        cases (messagesBelow B key h).find? fun u => u.type ≠ .UPDATE with
        | none => simp
        | some u' => simp

end Levels

end BEpsilon.BeTree
