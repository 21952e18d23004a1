import Mathlib.Data.List.Nodup
import Mathlib.Data.List.Count
import Mathlib.Logic.Function.Basic

/-!
# BEpsilon.Lib.Holders — how many threads hold a thing

`Counts k n` says that the threads hold a thing `n` times, thread `t` of them `k t` times; there may be any number
of threads.  A counter that each thread raises by one when it takes the thing and lowers by one when it gives it
back is such an `n`: if it is zero nobody holds the thing, and if a thread holds it as often as the counter says,
nobody else does.
-/

namespace BEpsilon

variable {T : Type} [DecidableEq T]

/-- The threads hold something `n` times, thread `t` of them `k t` times. -/
def Counts (k : T → ℕ) (n : ℕ) : Prop := ∃ ts : List T, (∀ t, ts.count t = k t) ∧ ts.length = n

variable {k : T → ℕ} {n : ℕ} {t u : T}

theorem counts_zero : Counts (fun _ : T => 0) 0 := ⟨[], fun _ => rfl, rfl⟩

theorem Counts.le (h : Counts k n) (t : T) : k t ≤ n := by
  obtain ⟨ts, hk, rfl⟩ := h
  rw [← hk t]
  exact List.count_le_length

/-- How often it is held follows from how often each thread holds it. -/
theorem Counts.total (h : Counts k n) {m : ℕ} (h' : Counts k m) : n = m := by
  obtain ⟨ts, hk, rfl⟩ := h
  obtain ⟨ts', hk', rfl⟩ := h'
  refine List.Perm.length_eq (List.perm_iff_count.mpr fun t => ?_)
  rw [hk, hk']

/-- The threads that hold it, when none holds it twice. -/
theorem Counts.holders (h : Counts k n) (hone : ∀ t, k t ≤ 1) :
    ∃ ts : List T, ts.Nodup ∧ ts.length = n ∧ ∀ t, t ∈ ts ↔ 0 < k t := by
  obtain ⟨ts, hk, rfl⟩ := h
  refine ⟨ts, List.nodup_iff_count_le_one.mpr fun t => hk t ▸ hone t, rfl, fun t => ?_⟩
  rw [← hk t, List.count_pos_iff]

theorem Counts.eq_zero (h : Counts k 0) (t : T) : k t = 0 := Nat.le_zero.mp (h.le t)

/-- A thread that holds it `n` times holds it alone. -/
theorem Counts.alone (h : Counts k n) (ht : k t = n) (hu : u ≠ t) : k u = 0 := by
  obtain ⟨ts, hk, rfl⟩ := h
  have hall : ∀ x ∈ ts, t = x := List.count_eq_length.mp ((hk t).trans ht)
  rw [← hk u, List.count_eq_zero]
  intro hmem
  exact hu (hall u hmem).symm

/-- Held once, by one thread. -/
theorem Counts.unique (h : Counts k 1) (ht : 0 < k t) (hu : 0 < k u) : u = t := by
  by_contra hne
  have hle := h.le t
  have hzero := h.alone (t := t) (by omega) hne
  omega

theorem Counts.same (h : Counts k n) {m : ℕ} (ht : k t = m) : Counts (Function.update k t m) n := by
  rwa [← ht, Function.update_eq_self]

/-- A thread takes it once more. -/
theorem Counts.take (h : Counts k n) (t : T) : Counts (Function.update k t (k t + 1)) (n + 1) := by
  obtain ⟨ts, hk, rfl⟩ := h
  refine ⟨t :: ts, fun u => ?_, List.length_cons⟩
  by_cases hu : u = t
  · subst hu
    rw [List.count_cons_self, hk, Function.update_self]
  · rw [List.count_cons_of_ne (Ne.symm hu), hk, Function.update_of_ne hu]

/-- A thread gives it back once. -/
theorem Counts.give (h : Counts k n) (ht : 0 < k t) : Counts (Function.update k t (k t - 1)) (n - 1) := by
  obtain ⟨ts, hk, rfl⟩ := h
  have hmem : t ∈ ts := List.count_pos_iff.mp (by rw [hk]; exact ht)
  refine ⟨ts.erase t, fun u => ?_, List.length_erase_of_mem hmem⟩
  by_cases hu : u = t
  · subst hu
    rw [List.count_erase_self, hk, Function.update_self]
  · rw [List.count_erase_of_ne hu, hk, Function.update_of_ne hu]

/-! ### Mutexes that many may hold -/

/-- Does each thread hold the mutex in this mode? -/
def inMode (e : Bool) (mode : T → Option Bool) (t : T) : ℕ := if mode t = some e then 1 else 0

/-- Do the threads hold a mutex this way?  Either one of them exclusively, or any number of them shared. -/
structure HeldBy (exclusive : Bool) (shared : ℕ) (mode : T → Option Bool) : Prop where
  writers : Counts (inMode true mode) (if exclusive then 1 else 0)
  readers : Counts (inMode false mode) shared
  apart : exclusive = true → shared = 0

variable {exclusive e : Bool} {shared : ℕ} {mode : T → Option Bool} {m : Option Bool}

omit [DecidableEq T] in
theorem inMode_self (h : mode t = some e) : inMode e mode t = 1 := if_pos h

omit [DecidableEq T] in
theorem inMode_other (h : mode t ≠ some e) : inMode e mode t = 0 := if_neg h

theorem inMode_update (e : Bool) (mode : T → Option Bool) (t : T) (m : Option Bool) :
    inMode e (Function.update mode t m) = Function.update (inMode e mode) t (if m = some e then 1 else 0) := by
  ext u
  by_cases hu : u = t
  · subst hu
    rw [inMode, Function.update_self, Function.update_self]
  · rw [inMode, Function.update_of_ne hu, Function.update_of_ne hu, inMode]

theorem heldBy_none : HeldBy false 0 fun _ : T => none :=
  ⟨counts_zero, counts_zero, by decide⟩

namespace HeldBy

theorem exclusive_of (h : HeldBy exclusive shared mode) (ht : mode t = some true) : exclusive = true := by
  have hle := h.writers.le t
  rw [inMode_self ht] at hle
  by_contra hne
  rw [if_neg hne] at hle
  omega

theorem shared_of (h : HeldBy exclusive shared mode) (ht : mode t = some false) : 0 < shared := by
  have hle := h.readers.le t
  rwa [inMode_self ht] at hle

/-- Below an exclusive hold there is no other. -/
theorem alone (h : HeldBy exclusive shared mode) (ht : mode t = some true) (hu : u ≠ t) : mode u = none := by
  have hex := h.exclusive_of ht
  have hshared := h.apart hex
  have hw := h.writers
  rw [if_pos hex] at hw
  have htrue : mode u ≠ some true := by
    intro hm
    refine hu (hw.unique (t := t) (u := u) ?_ ?_)
    · rw [inMode_self ht]
      exact Nat.one_pos
    · rw [inMode_self hm]
      exact Nat.one_pos
  have hfalse : mode u ≠ some false := by
    intro hm
    have hpos := h.shared_of hm
    omega
  rcases hm : mode u with _ | (_ | _)
  · rfl
  · exact absurd hm hfalse
  · exact absurd hm htrue

/-- A mutex that nobody has locked or shares. -/
theorem none_of (h : HeldBy false 0 mode) (t : T) : mode t = none := by
  rcases hm : mode t with _ | (_ | _)
  · rfl
  · exact absurd (h.shared_of hm) (by decide)
  · exact absurd (h.exclusive_of hm) (by decide)

/-- A mutex that nobody holds is not locked. -/
theorem free (h : HeldBy exclusive shared mode) (hnone : ∀ t, mode t = none) : exclusive = false ∧ shared = 0 := by
  have hzero : ∀ e, inMode e mode = fun _ => 0 := by
    intro e
    ext t
    exact inMode_other (by simp [hnone t])
  have hw := h.writers
  have hr := h.readers
  rw [hzero] at hw hr
  have hex := hw.total counts_zero
  refine ⟨?_, hr.total counts_zero⟩
  by_contra hne
  simp [hne] at hex

/-- Threads that hold something else once when they hold the mutex. -/
theorem total (h : HeldBy exclusive shared mode) (hk : ∀ t, k t = if mode t = none then 0 else 1) (hn : Counts k n) :
    if exclusive then shared = 0 ∧ n = 1 else shared = n := by
  have hsum : ∀ t, k t = inMode true mode t + inMode false mode t := by
    intro t
    rw [hk]
    rcases hm : mode t with _ | (_ | _) <;> simp [inMode, hm]
  split
  next hex =>
    have hshared := h.apart hex
    refine ⟨hshared, ?_⟩
    have hr := h.readers
    rw [hshared] at hr
    have hsame : k = inMode true mode := by
      ext t
      rw [hsum, hr.eq_zero t]
      rfl
    have hw := h.writers
    rw [if_pos hex, ← hsame] at hw
    exact hn.total hw
  next hex =>
    have hw := h.writers
    rw [if_neg hex] at hw
    have hsame : k = inMode false mode := by
      ext t
      rw [hsum, hw.eq_zero t, Nat.zero_add]
    have hr := h.readers
    rw [← hsame] at hr
    exact hr.total hn

/-- A thread takes it exclusively. -/
theorem lock (h : HeldBy false 0 mode) (t : T) : HeldBy true 0 (Function.update mode t (some true)) := by
  have ht := h.none_of t
  have hw := h.writers.take t
  have hr := h.readers.same (inMode_other (t := t) (e := false) (by rw [ht]; decide))
  refine ⟨?_, ?_, fun _ => rfl⟩
  · rw [inMode_other (by rw [ht]; decide)] at hw
    rw [inMode_update]
    exact hw
  · rw [inMode_update]
    exact hr

/-- A thread takes it shared. -/
theorem share (h : HeldBy false shared mode) (ht : mode t = none) :
    HeldBy false (shared + 1) (Function.update mode t (some false)) := by
  have hw := h.writers.same (inMode_other (t := t) (e := true) (by rw [ht]; decide))
  have hr := h.readers.take t
  rw [inMode_other (by rw [ht]; decide)] at hr
  refine ⟨?_, ?_, by simp⟩
  · rw [inMode_update]
    exact hw
  · rw [inMode_update]
    exact hr

/-- A thread gives it up, however it holds it. -/
theorem release (h : HeldBy exclusive shared mode) (ht : mode t ≠ none) :
    HeldBy false (if exclusive then shared else shared - 1) (Function.update mode t none) := by
  rcases hm : mode t with _ | (_ | _)
  · exact absurd hm ht
  · have hpos := h.shared_of hm
    have hex : exclusive = false := by
      by_contra hne
      have hzero := h.apart (by simpa using hne)
      omega
    subst hex
    have hw := h.writers.same (inMode_other (t := t) (e := true) (by rw [hm]; decide))
    have hr := h.readers.give (t := t) (by rw [inMode_self hm]; exact Nat.one_pos)
    rw [inMode_self hm] at hr
    refine ⟨?_, ?_, by simp⟩
    · rw [inMode_update]
      exact hw
    · rw [inMode_update]
      exact hr
  · obtain rfl := h.exclusive_of hm
    have hw := h.writers.give (t := t) (by rw [inMode_self hm]; exact Nat.one_pos)
    have hr := h.readers.same (inMode_other (t := t) (e := false) (by rw [hm]; decide))
    rw [inMode_self hm] at hw
    refine ⟨?_, ?_, by simp⟩
    · rw [inMode_update]
      exact hw
    · rw [inMode_update]
      exact hr

end HeldBy

end BEpsilon
