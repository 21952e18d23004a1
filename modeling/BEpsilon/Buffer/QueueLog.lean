import BEpsilon.Buffer.Queue
import Mathlib.Data.List.Nodup

/-!
# BEpsilon.Buffer.QueueLog — the queues are maps in the order of age

`Aged` says that a queue keeps its entries in the order of a stamp, the youngest first.  The calls made on
a queue so far, its log, tell which value was inserted for a key and when the key was stamped last: by its
insertion, and in an LRU queue also by `find` with `modify`.  After any calls the queue answers by these two,
and the scan from the back finds the oldest key with a fitting value.
-/

namespace BEpsilon.Buffer

variable {K V : Type} [DecidableEq K] {key : K} {now : ℕ} {stamp : K → ℕ} {q : Queue K V}

/-! ### Queues in the order of a stamp -/

/-- The entries of a queue, youngest first, all of them stamped before `now`. -/
structure Aged (stamp : K → ℕ) (now : ℕ) (q : Queue K V) : Prop where
  order : q.entryQueue.Pairwise fun e e' => stamp e'.key < stamp e.key
  past : ∀ e ∈ q.entryQueue, stamp e.key < now

namespace Aged

omit [DecidableEq K] in
theorem congr {stamp' : K → ℕ} {now' : ℕ} (hq : Aged stamp now q)
    (hstamp : ∀ e ∈ q.entryQueue, stamp' e.key = stamp e.key) (hnow : now ≤ now') : Aged stamp' now' q := by
  refine ⟨hq.order.imp_of_mem ?_, ?_⟩
  · intro e e' he he' h
    rwa [hstamp e he, hstamp e' he']
  · intro e he
    rw [hstamp e he]
    exact Nat.lt_of_lt_of_le (hq.past e he) hnow

omit [DecidableEq K] in
theorem sublist {q' : Queue K V} (hq : Aged stamp now q) (h : q'.entryQueue.Sublist q.entryQueue) :
    Aged stamp now q' :=
  ⟨hq.order.sublist h, fun e he => hq.past e (h.subset he)⟩

theorem remove (hq : Aged stamp now q) : Aged stamp now (q.remove key) := by
  refine hq.sublist ?_
  unfold Queue.remove
  split
  · exact List.Sublist.refl _
  · exact List.eraseP_sublist

/-- An entry at the front that is stamped now. -/
theorem cons {e : QueueNode K V} {es : List (QueueNode K V)} {q' : Queue K V}
    (hq : Aged stamp now q) (hes : es.Sublist q.entryQueue) (hne : ∀ e' ∈ es, e'.key ≠ e.key)
    (hq' : q'.entryQueue = e :: es) : Aged (Function.update stamp e.key now) (now + 1) q' := by
  have hstamp : ∀ e' ∈ es, Function.update stamp e.key now e'.key = stamp e'.key := by
    intro e' he'
    exact Function.update_of_ne (hne e' he') _ _
  have hsub : Aged stamp now { q with entryQueue := es } := hq.sublist hes
  have htail : Aged (Function.update stamp e.key now) (now + 1) { q with entryQueue := es } :=
    hsub.congr hstamp (Nat.le_succ now)
  refine ⟨?_, ?_⟩
  · rw [hq']
    refine List.pairwise_cons.mpr ⟨?_, htail.order⟩
    intro e' he'
    rw [hstamp e' he', Function.update_self]
    exact hq.past e' (hes.subset he')
  · rw [hq']
    intro e' he'
    rcases List.mem_cons.mp he' with rfl | he'
    · rw [Function.update_self]
      exact Nat.lt_succ_self now
    · exact htail.past e' he'

theorem insert (hq : Aged stamp now q) (hkey : ∀ s, ¬ q.Has key s) (s : V) :
    Aged (Function.update stamp key now) (now + 1) (q.insert key s) := by
  refine hq.cons (e := ⟨q.next, key, s⟩) (List.Sublist.refl _) ?_ rfl
  intro e he hek
  exact hkey e.value ⟨e, he, hek, rfl⟩

theorem toFront {s : V} (hq : Aged stamp now q) (hok : q.Ok) (hkey : q.Has key s) :
    Aged (Function.update stamp key now) (now + 1) (q.toFront key) := by
  obtain ⟨e, he, rfl, -⟩ := hkey
  have hd : q.deref e.key = some e := hok.deref_eq_some.mpr ⟨he, rfl⟩
  refine hq.cons (e := e) List.eraseP_sublist ?_ (by rw [Queue.toFront, hd])
  intro e' he'
  exact ((hok.mem_eraseP he).mp he').2

omit [DecidableEq K] in
/-- The scan from the back finds the oldest entry that fits. -/
theorem find?_oldest (hq : Aged stamp now q) {p : QueueNode K V → Bool} {e : QueueNode K V}
    (h : q.entryQueue.reverse.find? p = some e) :
    e ∈ q.entryQueue ∧ p e = true ∧
      ∀ e' ∈ q.entryQueue, p e' = true → e'.key ≠ e.key → stamp e.key < stamp e'.key := by
  obtain ⟨hp, pre, post, hcut, hpre⟩ := List.find?_eq_some_iff_append.mp h
  have hes : q.entryQueue = post.reverse ++ e :: pre.reverse := by
    rw [← List.reverse_reverse q.entryQueue, hcut]
    simp
  refine ⟨by rw [hes]; simp, hp, ?_⟩
  intro e' he' hp' hne
  have horder := hq.order
  rw [hes] at he' horder
  rcases List.mem_append.mp he' with hm | hm
  · exact (List.pairwise_append.mp horder).2.2 e' hm e List.mem_cons_self
  · rcases List.mem_cons.mp hm with rfl | hm
    · exact absurd rfl hne
    · -- those behind it in the queue do not fit
      have hno := hpre e' (List.mem_reverse.mp hm)
      rw [hp'] at hno
      simp at hno

end Aged

/-! ### The calls -/

/-- The two classes of queues. -/
inductive QueueKind : Type
  | FIFOQueue
  | LRUQueue
  deriving DecidableEq

namespace Queue

/-- `FIFOQueue::find` and `LRUQueue::find`: the value and the queue after the call; `none` where it raises. -/
def findModify (kind : QueueKind) (q : Queue K V) (key : K) (modify : Bool) : Option (V × Queue K V) :=
  if q.contains key then
    match kind with
    | .FIFOQueue => (q.find key).map fun v => (v, q)
    | .LRUQueue => (q.find key).map fun v => (v, if modify then q.toFront key else q)
  else none

/-- The entry that `remove` returns. -/
def removedEntry (q : Queue K V) (key : K) : Option (K × V) := (q.deref key).map fun e => (e.key, e.value)

def getList (q : Queue K V) : List (K × V) := q.entryQueue.map fun e => (e.key, e.value)

/-- `findOne` with a predicate that only looks at the value. -/
def findOnePure (q : Queue K V) (predicate : V → Bool) : Option K :=
  Id.run (q.findOne fun v => pure (predicate v))

omit [DecidableEq K] in
theorem mem_getList {value : V} : (key, value) ∈ q.getList ↔ q.Has key value := by
  simp only [getList, Has, List.mem_map, Prod.mk.injEq]

/-- The map has as many keys as the list has entries. -/
theorem Ok.size_eq (h : q.Ok) : q.size = q.getList.length := by
  have hmem : ∀ k, k ∈ q.pointerMap.keys ↔ k ∈ q.entryQueue.map QueueNode.key := by
    intro k
    rw [← AList.mem_keys, ← AList.lookup_isSome, Option.isSome_iff_exists, List.mem_map]
    constructor
    · rintro ⟨it, hit⟩
      obtain ⟨e, he, hk, -⟩ := (h.pointers k it).mp hit
      exact ⟨e, he, hk⟩
    · rintro ⟨e, he, hk⟩
      exact ⟨e.it, (h.pointers k e.it).mpr ⟨e, he, hk, rfl⟩⟩
  have hperm : q.pointerMap.keys.Perm (q.entryQueue.map QueueNode.key) :=
    (List.perm_ext_iff_of_nodup q.pointerMap.keys_nodup h.keys).mpr hmem
  have hlen := hperm.length_eq
  rw [AList.keys, List.keys, List.length_map, List.length_map] at hlen
  rw [size, getList, List.length_map]
  exact hlen

theorem Ok.removedEntry_eq_some (h : q.Ok) {k : K} {value : V} :
    q.removedEntry key = some (k, value) ↔ k = key ∧ q.Has key value := by
  rw [removedEntry, Option.map_eq_some_iff]
  constructor
  · rintro ⟨e, he, heq⟩
    obtain ⟨hm, rfl⟩ := h.deref_eq_some.mp he
    obtain ⟨rfl, rfl⟩ := Prod.mk.inj heq
    exact ⟨rfl, e, hm, rfl, rfl⟩
  · rintro ⟨rfl, e, he, rfl, rfl⟩
    exact ⟨e, h.deref_eq_some.mpr ⟨he, rfl⟩, rfl⟩

/-- `find` of either class gives the value, in either mode. -/
theorem Ok.findModify_value (h : q.Ok) (kind : QueueKind) (modify : Bool) :
    (q.findModify kind key modify).map Prod.fst = q.find key := by
  have hfst : ∀ o : Option V, ∀ f : V → Queue K V, (o.map fun v => (v, f v)).map Prod.fst = o := by
    intro o f
    cases o <;> rfl
  unfold findModify
  split
  next hc =>
    cases kind with
    | FIFOQueue => exact hfst _ _
    | LRUQueue => exact hfst _ _
  next hc =>
    symm
    rw [Option.map_none, Option.eq_none_iff_forall_ne_some]
    intro v hv
    exact hc (h.contains_iff.mpr ⟨v, h.find_eq_some.mp hv⟩)

omit [DecidableEq K] in
theorem findOnePure_eq (p : V → Bool) :
    q.findOnePure p = (q.entryQueue.reverse.find? fun e => p e.value).map QueueNode.key := by
  simp [findOnePure, findOne]

end Queue

/-! ### Logs -/

/-- A call on a queue. -/
inductive QueueCall (K V : Type) : Type
  | insert (key : K) (value : V)
  | remove (key : K)
  | find (key : K) (modify : Bool)
  | findOne (predicate : V → Bool)

namespace QueueCall

/-- The queue after a call; one that raises leaves it as it is. -/
def run (kind : QueueKind) : QueueCall K V → Queue K V → Queue K V
  | insert key value, q => q.insert key value
  | remove key, q => q.remove key
  | find key modify, q => ((q.findModify kind key modify).map Prod.snd).getD q
  | findOne _, q => q

/-- The value that is stored for a key after a call. -/
def values : QueueCall K V → (K → Option V) → K → Option V
  | insert key value, vs => Function.update vs key (some value)
  | remove key, vs => Function.update vs key none
  | find _ _, vs => vs
  | findOne _, vs => vs

/-- The calls that stamp their key: an insertion, and `find` with `modify` in an LRU queue. -/
def stamps (kind : QueueKind) (now : ℕ) : QueueCall K V → (K → ℕ) → K → ℕ
  | insert key _, stamp => Function.update stamp key now
  | find key modify, stamp =>
    if kind = .LRUQueue ∧ modify = true then Function.update stamp key now else stamp
  | remove _, stamp => stamp
  | findOne _, stamp => stamp

/-- A key is inserted when it is not there, and removed when it is. -/
def Legal (vs : K → Option V) : QueueCall K V → Prop
  | insert key _ => vs key = none
  | remove key => (vs key).isSome
  | find _ _ => True
  | findOne _ => True

end QueueCall

/-- The calls made on a queue, the last one first. -/
abbrev QueueLog (K V : Type) : Type := List (QueueCall K V)

namespace QueueLog

/-- The queue that the calls leave. -/
def queue (kind : QueueKind) (log : QueueLog K V) : Queue K V := log.foldr (QueueCall.run kind) {}

/-- The value that was inserted for a key, as long as it is not removed. -/
def valueOf : QueueLog K V → K → Option V
  | [] => fun _ => none
  | call :: log => call.values (valueOf log)

/-- When the key was stamped last: the number of calls before. -/
def stampOf (kind : QueueKind) : QueueLog K V → K → ℕ
  | [] => fun _ => 0
  | call :: log => call.stamps kind log.length (stampOf kind log)

/-- Each call was legal when it was made. -/
def Legal : QueueLog K V → Prop
  | [] => True
  | call :: log => call.Legal (valueOf log) ∧ Legal log

variable {log : QueueLog K V} {kind : QueueKind} {call : QueueCall K V}

/-- The queue is the one that the calls tell of. -/
structure Matches (kind : QueueKind) (log : QueueLog K V) (q : Queue K V) : Prop where
  ok : q.Ok
  aged : Aged (stampOf kind log) log.length q
  values : ∀ key value, q.Has key value ↔ valueOf log key = some value

namespace Matches

/-- A call that moves nothing: the stamp of a listed key is what it was. -/
theorem same (h : Matches kind log q) (hvalues : valueOf (call :: log) = valueOf log)
    (hstamp : ∀ e ∈ q.entryQueue, stampOf kind (call :: log) e.key = stampOf kind log e.key) :
    Matches kind (call :: log) q := by
  refine ⟨h.ok, h.aged.congr hstamp (Nat.le_succ _), ?_⟩
  rw [hvalues]
  exact h.values

theorem insert {value : V} (h : Matches kind log q) (hkey : valueOf log key = none) :
    Matches kind (.insert key value :: log) (q.insert key value) := by
  have hnot : ∀ v, ¬ q.Has key v := by
    intro v hv
    rw [h.values, hkey] at hv
    cases hv
  have hcontains : ¬ q.contains key = true := by
    intro hc
    obtain ⟨v, hv⟩ := h.ok.contains_iff.mp hc
    exact hnot v hv
  refine ⟨h.ok.insert hcontains value, h.aged.insert hnot value, ?_⟩
  intro k v
  rw [Queue.has_insert, valueOf, QueueCall.values]
  by_cases hk : k = key
  · subst hk
    rw [Function.update_self, Option.some.injEq]
    constructor
    · rintro (⟨-, rfl⟩ | hv)
      · rfl
      · exact absurd hv (hnot v)
    · rintro rfl
      exact .inl ⟨rfl, rfl⟩
  · rw [Function.update_of_ne hk, ← h.values]
    exact ⟨fun hv => hv.resolve_left fun hc => hk hc.1, .inr⟩

theorem remove (h : Matches kind log q) : Matches kind (.remove key :: log) (q.remove key) := by
  refine ⟨h.ok.remove, h.aged.remove.congr (fun _ _ => rfl) (Nat.le_succ _), ?_⟩
  intro k v
  rw [h.ok.has_remove, valueOf, QueueCall.values]
  by_cases hk : k = key
  · subst hk
    rw [Function.update_self]
    exact ⟨fun hc => absurd rfl hc.1, fun hc => by cases hc⟩
  · rw [Function.update_of_ne hk, h.values]
    exact ⟨fun hc => hc.2, fun hc => ⟨hk, hc⟩⟩

theorem toFront (h : Matches .LRUQueue log q) {v : V} (hv : q.Has key v) :
    Matches .LRUQueue (.find key true :: log) (q.toFront key) := by
  refine ⟨h.ok.toFront, ?_, ?_⟩
  · have haged := h.aged.toFront h.ok hv
    rw [stampOf, QueueCall.stamps, if_pos ⟨rfl, rfl⟩]
    exact haged
  · intro k v'
    rw [h.ok.has_toFront]
    exact h.values k v'

theorem find {modify : Bool} (h : Matches kind log q) :
    Matches kind (.find key modify :: log) ((QueueCall.find key modify).run kind q) := by
  rw [QueueCall.run, Queue.findModify.eq_def]
  by_cases hc : q.contains key = true
  · obtain ⟨v, hv⟩ := h.ok.contains_iff.mp hc
    have hfind : q.find key = some v := h.ok.find_eq_some.mpr hv
    rw [if_pos hc, hfind]
    cases kind with
    | FIFOQueue => exact h.same rfl fun _ _ => rfl
    | LRUQueue =>
      cases modify with
      | true => exact h.toFront hv
      | false => exact h.same rfl fun _ _ => rfl
  · -- the call raises, and a stamp it leaves is that of a key that is not listed
    rw [if_neg hc]
    refine h.same rfl fun e he => ?_
    have hne : e.key ≠ key := by
      rintro rfl
      exact hc (h.ok.contains_iff.mpr ⟨e.value, e, he, rfl, rfl⟩)
    rw [stampOf, QueueCall.stamps]
    split
    · exact Function.update_of_ne hne _ _
    · rfl

/-- One call. -/
theorem step (h : Matches kind log q) (hlegal : call.Legal (valueOf log)) :
    Matches kind (call :: log) (call.run kind q) := by
  cases call with
  | insert key value => exact h.insert hlegal
  | remove key => exact h.remove
  | find key modify => exact h.find
  | findOne p => exact h.same rfl fun _ _ => rfl

end Matches

/-- All calls. -/
theorem matches_queue (kind : QueueKind) (hlegal : Legal log) : Matches kind log (queue kind log) := by
  induction log with
  | nil => exact ⟨Queue.ok_empty, ⟨List.Pairwise.nil, by simp [queue]⟩, by simp [queue, Queue.Has, valueOf]⟩
  | cons call log ih => exact (ih hlegal.2).step hlegal.1

/-- After any legal calls the queue is the map of the inserted values, and `findOne` gives the fitting key
that was stamped first. -/
theorem queue_orderedMap (kind : QueueKind) (log : QueueLog K V) (hlegal : Legal log) :
    let q := queue kind log
    q.size = q.getList.length ∧
    (∀ key, q.contains key = true ↔ key ∈ q.getList.map Prod.fst) ∧
    (∀ key value, (key, value) ∈ q.getList ↔ valueOf log key = some value) ∧
    (∀ key modify, (q.findModify kind key modify).map Prod.fst = valueOf log key) ∧
    (∀ key, q.removedEntry key = (valueOf log key).map fun value => (key, value)) ∧
    (∀ predicate key, q.findOnePure predicate = some key →
      ∃ value, valueOf log key = some value ∧ predicate value = true ∧
        ∀ key' value', valueOf log key' = some value' → predicate value' = true → key' ≠ key →
          stampOf kind log key < stampOf kind log key') ∧
    ∀ predicate, q.findOnePure predicate = none ↔
      ∀ key value, valueOf log key = some value → predicate value = false := by
  intro q
  have hm : Matches kind log q := matches_queue kind hlegal
  have hfind : ∀ key, q.find key = valueOf log key := by
    intro key
    refine Option.ext fun v => ?_
    rw [hm.ok.find_eq_some, hm.values]
  refine ⟨hm.ok.size_eq, ?_, ?_, ?_, ?_, ?_, ?_⟩
  · intro key
    rw [hm.ok.contains_iff, List.mem_map]
    constructor
    · rintro ⟨v, hv⟩
      exact ⟨(key, v), Queue.mem_getList.mpr hv, rfl⟩
    · rintro ⟨⟨k, v⟩, hv, rfl⟩
      exact ⟨v, Queue.mem_getList.mp hv⟩
  · intro key value
    rw [Queue.mem_getList, hm.values]
  · intro key modify
    rw [hm.ok.findModify_value, hfind]
  · intro key
    refine Option.ext fun ⟨k, v⟩ => ?_
    rw [hm.ok.removedEntry_eq_some, hm.values, Option.map_eq_some_iff]
    constructor
    · rintro ⟨rfl, hv⟩
      exact ⟨v, hv, rfl⟩
    · rintro ⟨v', hv, heq⟩
      obtain ⟨rfl, rfl⟩ := Prod.mk.inj heq
      exact ⟨rfl, hv⟩
  · intro p key h
    rw [Queue.findOnePure_eq, Option.map_eq_some_iff] at h
    obtain ⟨e, he, rfl⟩ := h
    obtain ⟨hmem, hp, hold⟩ := hm.aged.find?_oldest he
    refine ⟨e.value, (hm.values _ _).mp ⟨e, hmem, rfl, rfl⟩, hp, ?_⟩
    intro key' value' hv hp' hne
    obtain ⟨e', he', rfl, rfl⟩ := (hm.values _ _).mpr hv
    exact hold e' he' hp' hne
  · intro p
    rw [Queue.findOnePure_eq, Option.map_eq_none_iff, List.find?_eq_none]
    constructor
    · intro h key value hv
      obtain ⟨e, he, rfl, rfl⟩ := (hm.values _ _).mpr hv
      exact Bool.eq_false_iff.mpr (h e (List.mem_reverse.mpr he))
    · intro h e he hp
      have hv := (hm.values _ _).mp ⟨e, List.mem_reverse.mp he, rfl, rfl⟩
      rw [h e.key e.value hv] at hp
      cases hp

/-- Two keys in an LRU queue, the older one found with `modify`: the other one is now the oldest. -/
theorem queue_orderedMap_refreshed :
    let log : QueueLog ℕ ℕ := [.find 1 true, .insert 2 20, .insert 1 10]
    (queue .LRUQueue log).findOnePure (fun _ => true) = some 2 ∧
      stampOf .LRUQueue log 2 < stampOf .LRUQueue log 1 := by
  intro log
  have hlegal : Legal log := ⟨trivial, rfl, rfl, trivial⟩
  obtain ⟨-, -, -, -, -, hoff, -⟩ := queue_orderedMap .LRUQueue log hlegal
  have hfound : (queue .LRUQueue log).findOnePure (fun _ => true) = some 2 := by decide
  obtain ⟨-, -, -, hold⟩ := hoff _ _ hfound
  exact ⟨hfound, hold 1 10 rfl rfl (by decide)⟩

end QueueLog

end BEpsilon.Buffer
