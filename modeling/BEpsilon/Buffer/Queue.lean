import Mathlib.Data.List.AList
import Mathlib.Tactic.Common

/-!
# BEpsilon.Buffer.Queue — the two queues of the page buffer

`Queue.h` with its two subclasses: a list of entries, youngest first, and a map from keys to list
iterators.  An iterator is a number that is handed out once; `Queue.Ok` says that the map points, for
exactly the listed keys, at their entries.  `Has` is the mapping that a queue stores.
-/

namespace BEpsilon.Buffer

/-- A list node: the iterator that points at it and the entry. -/
structure QueueNode (K V : Type) where
  it : ℕ
  key : K
  value : V

/-- `FIFOQueue` and `LRUQueue` share their data. -/
structure Queue (K V : Type) where
  entryQueue : List (QueueNode K V) := []
  pointerMap : AList (fun _ : K => ℕ) := ∅
  /-- iterators handed out -/
  next : ℕ := 0

namespace Queue

variable {K V : Type} [DecidableEq K]

def size (q : Queue K V) : ℕ := q.pointerMap.entries.length

/-- Inserted values are at the front. -/
def insert (q : Queue K V) (key : K) (value : V) : Queue K V :=
  { entryQueue := ⟨q.next, key, value⟩ :: q.entryQueue
    pointerMap := q.pointerMap.insert key q.next
    next := q.next + 1 }

def contains (q : Queue K V) (key : K) : Bool := (q.pointerMap.lookup key).isSome

/-- The entry that `pointerMap[key]` points at; `none` when there is no such pointer. -/
def deref (q : Queue K V) (key : K) : Option (QueueNode K V) := do
  let it ← q.pointerMap.lookup key
  q.entryQueue.find? fun e => e.it == it

/-- Takes the entry of a contained key out of the queue. -/
def remove (q : Queue K V) (key : K) : Queue K V :=
  match q.deref key with
  | none => q
  | some e =>
    { q with
      entryQueue := q.entryQueue.eraseP fun e' => e'.it == e.it
      pointerMap := q.pointerMap.erase key }

/-- `find(key, false)`; `none` when it raises. -/
def find (q : Queue K V) (key : K) : Option V := (q.deref key).map QueueNode.value

/-- The splice of `LRUQueue::find(key, true)`: move the entry to the front. -/
def toFront (q : Queue K V) (key : K) : Queue K V :=
  match q.deref key with
  | none => q
  | some e => { q with entryQueue := e :: q.entryQueue.eraseP fun e' => e'.it == e.it }

/-- The first key from the back whose value satisfies the predicate. -/
def findOne {m : Type → Type*} [Monad m] (q : Queue K V) (predicate : V → m Bool) :
    m (Option K) := do
  return (← q.entryQueue.reverse.findM? fun e => predicate e.value).map QueueNode.key

/-- The queue stores `value` for `key`. -/
def Has (q : Queue K V) (key : K) (value : V) : Prop :=
  ∃ e ∈ q.entryQueue, e.key = key ∧ e.value = value

/-- Iterators and keys are distinct and the map points at the entries of exactly the listed keys. -/
structure Ok (q : Queue K V) : Prop where
  its : (q.entryQueue.map QueueNode.it).Nodup
  keys : (q.entryQueue.map QueueNode.key).Nodup
  lt_next : ∀ e ∈ q.entryQueue, e.it < q.next
  pointers : ∀ key it, q.pointerMap.lookup key = some it ↔
    ∃ e ∈ q.entryQueue, e.key = key ∧ e.it = it

omit [DecidableEq K] in
theorem ok_empty [DecidableEq K] : Ok (K := K) (V := V) {} :=
  ⟨List.nodup_nil, List.nodup_nil, by simp, by simp⟩

variable {q : Queue K V} {key key' : K} {value value' : V}

theorem Ok.it_inj (h : q.Ok) {e e' : QueueNode K V} (he : e ∈ q.entryQueue)
    (he' : e' ∈ q.entryQueue) (hit : e.it = e'.it) : e = e' :=
  List.inj_on_of_nodup_map h.its he he' hit

theorem Ok.key_inj (h : q.Ok) {e e' : QueueNode K V} (he : e ∈ q.entryQueue)
    (he' : e' ∈ q.entryQueue) (hkey : e.key = e'.key) : e = e' :=
  List.inj_on_of_nodup_map h.keys he he' hkey

theorem Ok.deref_eq_some (h : q.Ok) {e : QueueNode K V} :
    q.deref key = some e ↔ e ∈ q.entryQueue ∧ e.key = key := by
  constructor
  · intro hd
    obtain ⟨it, hit, hfind⟩ := Option.bind_eq_some_iff.mp hd
    have hmem := List.mem_of_find?_eq_some hfind
    have heq : e.it = it := by simpa using List.find?_some hfind
    obtain ⟨e', he', hk, hi⟩ := (h.pointers key it).mp hit
    obtain rfl := h.it_inj hmem he' (by rw [heq, hi])
    exact ⟨hmem, hk⟩
  · rintro ⟨he, rfl⟩
    have hit := (h.pointers e.key e.it).mpr ⟨e, he, rfl, rfl⟩
    refine Option.bind_eq_some_iff.mpr ⟨e.it, hit, ?_⟩
    obtain ⟨e', he'⟩ : ∃ e', q.entryQueue.find? (fun e' => e'.it == e.it) = some e' := by
      rw [← Option.isSome_iff_exists, List.find?_isSome]
      exact ⟨e, he, by simp⟩
    have heq : e'.it = e.it := by simpa using List.find?_some he'
    rw [he', h.it_inj (List.mem_of_find?_eq_some he') he heq]

theorem Ok.contains_iff (h : q.Ok) : q.contains key = true ↔ ∃ value, q.Has key value := by
  rw [contains, Option.isSome_iff_exists]
  constructor
  · rintro ⟨it, hit⟩
    obtain ⟨e, he, hk, -⟩ := (h.pointers key it).mp hit
    exact ⟨e.value, e, he, hk, rfl⟩
  · rintro ⟨v, e, he, hk, -⟩
    exact ⟨e.it, (h.pointers key e.it).mpr ⟨e, he, hk, rfl⟩⟩

theorem Ok.has_inj (h : q.Ok) (h₁ : q.Has key value) (h₂ : q.Has key value') : value = value' := by
  obtain ⟨e, he, rfl, rfl⟩ := h₁
  obtain ⟨e', he', hk, rfl⟩ := h₂
  rw [h.key_inj he he' hk.symm]

theorem Ok.find_eq_some (h : q.Ok) : q.find key = some value ↔ q.Has key value := by
  rw [find, Option.map_eq_some_iff]
  constructor
  · rintro ⟨e, he, rfl⟩
    obtain ⟨hm, hk⟩ := h.deref_eq_some.mp he
    exact ⟨e, hm, hk, rfl⟩
  · rintro ⟨e, he, hk, rfl⟩
    exact ⟨e, h.deref_eq_some.mpr ⟨he, hk⟩, rfl⟩

theorem Ok.insert (h : q.Ok) (hk : ¬ q.contains key) (value : V) : (q.insert key value).Ok := by
  have hnot : ∀ e ∈ q.entryQueue, e.key ≠ key := fun e he hek =>
    hk (h.contains_iff.mpr ⟨e.value, e, he, hek, rfl⟩)
  refine ⟨?_, ?_, fun e he => ?_, fun key' it => ?_⟩
  · rw [Queue.insert, List.map_cons, List.nodup_cons]
    refine ⟨fun hm => ?_, h.its⟩
    obtain ⟨e, he, heq⟩ := List.mem_map.mp hm
    exact absurd heq (Nat.ne_of_lt (h.lt_next e he))
  · rw [Queue.insert, List.map_cons, List.nodup_cons]
    refine ⟨fun hm => ?_, h.keys⟩
    obtain ⟨e, he, heq⟩ := List.mem_map.mp hm
    exact hnot e he heq
  · rcases List.mem_cons.mp he with rfl | he
    · exact Nat.lt_succ_self _
    · exact Nat.lt_succ_of_lt (h.lt_next e he)
  · by_cases hkk : key' = key
    · subst hkk
      simp only [Queue.insert, AList.lookup_insert, Option.some.injEq, List.mem_cons]
      constructor
      · rintro rfl
        exact ⟨_, .inl rfl, rfl, rfl⟩
      · rintro ⟨e, rfl | he, hek, rfl⟩
        · rfl
        · exact absurd hek (hnot e he)
    · simp only [Queue.insert, AList.lookup_insert_ne hkk, h.pointers key' it, List.mem_cons]
      constructor
      · rintro ⟨e, he, hek⟩
        exact ⟨e, .inr he, hek⟩
      · rintro ⟨e, rfl | he, hek⟩
        · exact absurd hek.1.symm hkk
        · exact ⟨e, he, hek⟩

theorem has_insert : (q.insert key value).Has key' value' ↔
    (key' = key ∧ value' = value) ∨ q.Has key' value' := by
  simp only [Has, Queue.insert, List.mem_cons, exists_eq_or_imp]
  simp only [eq_comm]

theorem Ok.mem_eraseP (h : q.Ok) {e e' : QueueNode K V} (he : e ∈ q.entryQueue) :
    e' ∈ q.entryQueue.eraseP (fun x => x.it == e.it) ↔ e' ∈ q.entryQueue ∧ e'.key ≠ e.key := by
  obtain ⟨x, l₁, l₂, hl₁, hx, hq, her⟩ := List.exists_of_eraseP (p := fun x => x.it == e.it) he
    (by simp)
  have hxq : x ∈ q.entryQueue := by rw [hq]; simp
  obtain rfl : x = e := h.it_inj hxq he (by simpa using hx)
  rw [her, hq]
  have hnd := h.keys
  rw [hq, List.map_append, List.map_cons] at hnd
  have hmid := List.nodup_middle.mp hnd
  rw [List.nodup_cons, List.mem_append] at hmid
  simp only [List.mem_append, List.mem_cons]
  constructor
  · rintro (hm | hm)
    · exact ⟨.inl hm, fun e' => hmid.1 (.inl (List.mem_map.mpr ⟨_, hm, e'⟩))⟩
    · exact ⟨.inr (.inr hm), fun e' => hmid.1 (.inr (List.mem_map.mpr ⟨_, hm, e'⟩))⟩
  · rintro ⟨hm | rfl | hm, hne⟩
    · exact .inl hm
    · exact absurd rfl hne
    · exact .inr hm

theorem Ok.remove (h : q.Ok) : (q.remove key).Ok := by
  unfold Queue.remove
  split
  next => exact h
  next e hd =>
    obtain ⟨he, rfl⟩ := h.deref_eq_some.mp hd
    refine ⟨(List.Sublist.map _ List.eraseP_sublist).nodup h.its,
      (List.Sublist.map _ List.eraseP_sublist).nodup h.keys,
      fun e' he' => h.lt_next e' (List.mem_of_mem_eraseP he'), fun key' it => ?_⟩
    by_cases hk : key' = e.key
    · subst hk
      simp only [AList.lookup_erase, reduceCtorEq, false_iff, not_exists, not_and]
      intro e' he' hek
      exact absurd hek ((h.mem_eraseP he).mp he').2
    · simp only [AList.lookup_erase_ne hk, h.pointers key' it, h.mem_eraseP he]
      constructor
      · rintro ⟨e', he', rfl, hit⟩
        exact ⟨e', ⟨he', hk⟩, rfl, hit⟩
      · rintro ⟨e', ⟨he', -⟩, hek⟩
        exact ⟨e', he', hek⟩

theorem Ok.has_remove (h : q.Ok) :
    (q.remove key).Has key' value' ↔ key' ≠ key ∧ q.Has key' value' := by
  unfold Queue.remove
  split
  next hd =>
    refine ⟨fun hh => ⟨?_, hh⟩, fun hh => hh.2⟩
    rintro rfl
    obtain ⟨e, he, hk, -⟩ := hh
    rw [h.deref_eq_some.mpr ⟨he, hk⟩] at hd
    exact absurd hd (by simp)
  next e hd =>
    obtain ⟨he, rfl⟩ := h.deref_eq_some.mp hd
    simp only [Has, h.mem_eraseP he]
    constructor
    · rintro ⟨e', ⟨he', hne⟩, rfl, hv⟩
      exact ⟨hne, e', he', rfl, hv⟩
    · rintro ⟨hne, e', he', rfl, hv⟩
      exact ⟨e', ⟨he', hne⟩, rfl, hv⟩

theorem Ok.perm_toFront (h : q.Ok) : (q.toFront key).entryQueue.Perm q.entryQueue := by
  unfold toFront
  split
  next => exact .refl _
  next e hd =>
    obtain ⟨he, rfl⟩ := h.deref_eq_some.mp hd
    obtain ⟨x, l₁, l₂, -, hx, hq, her⟩ := List.exists_of_eraseP (p := fun x => x.it == e.it) he
      (by simp)
    obtain rfl : x = e := h.it_inj (by rw [hq]; simp) he (by simpa using hx)
    simp only [her]
    rw [hq]
    exact List.perm_middle.symm

omit [DecidableEq K] in
theorem toFront_pointerMap [DecidableEq K] : (q.toFront key).pointerMap = q.pointerMap := by
  unfold toFront
  split <;> rfl

theorem toFront_next : (q.toFront key).next = q.next := by
  unfold toFront
  split <;> rfl

theorem Ok.toFront (h : q.Ok) : (q.toFront key).Ok := by
  have hp : (q.toFront key).entryQueue.Perm q.entryQueue := h.perm_toFront
  refine ⟨(hp.map _).nodup_iff.mpr h.its, (hp.map _).nodup_iff.mpr h.keys, fun e he => ?_,
    fun key' it => ?_⟩
  · rw [toFront_next]
    exact h.lt_next e (hp.mem_iff.mp he)
  · rw [toFront_pointerMap, h.pointers]
    simp only [hp.mem_iff]

theorem Ok.has_toFront (h : q.Ok) : (q.toFront key).Has key' value' ↔ q.Has key' value' := by
  simp only [Has, h.perm_toFront.mem_iff]

end Queue

end BEpsilon.Buffer
