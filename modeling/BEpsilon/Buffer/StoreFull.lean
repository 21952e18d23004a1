import BEpsilon.Buffer.PageFull
import BEpsilon.Buffer.TreeStore

/-!
# BEpsilon.Buffer.StoreFull — a tree that finds its page buffer full

An ideal store that has room for as many pages as the page buffer has slots finds itself full exactly where
the page buffer does.  What a store holds can be read off it page by page, also after the failure.
-/

namespace BEpsilon.Buffer

variable {D H α : Type} {B : BufRules} {R : PageRules} {w : PageWorld D H} {v : Store D H} {id : PageId}

/-- What a page holds: the data in its slot or, when it has none, in its block. -/
def Store.page (v : Store D H) (id : PageId) : D :=
  match v.buf.pageTable.lookup id with
  | some index => (v.buf.pages index).data
  | none => v.buf.blocks id

namespace Mirrors

theorem page_eq (hM : Mirrors B w v) {d : D} (hd : w.mem id = some d) : v.page id = d := by
  unfold Store.page
  cases hl : v.buf.pageTable.lookup id with
  | some index => exact hM.cached id d hd index hl
  | none =>
    refine (hM.backed id d hd ?_).1 hl
    rintro p hp rfl
    cases hl.symm.trans (hM.pinned p hp).1

/-- With a page pinned for every slot there is nothing to evict, and no other page has a slot. -/
theorem full (hM : Mirrors B w v) (hlen : B.N ≤ w.pins.length) (id : PageId) :
    (∀ s < B.N, (v.buf.pages s).pins ≠ 0) ∧ ((∀ p ∈ w.pins, p.1 ≠ id) → v.buf.pageTable.lookup id = none) := by
  have hnodup : (w.pins.map fun p => v.ref p.1).Nodup := by
    rw [show (fun p : PageId × Option D => v.ref p.1) = v.ref ∘ Prod.fst from rfl, ← List.map_map]
    refine List.Nodup.map_on ?_ hM.nodup
    intro a ha b hb e
    obtain ⟨p, hp, rfl⟩ := List.mem_map.mp ha
    obtain ⟨q, hq, rfl⟩ := List.mem_map.mp hb
    exact hM.inv.inj _ _ _ (hM.pinned p hp).1 (e ▸ (hM.pinned q hq).1)
  have hsub : (w.pins.map fun p => v.ref p.1).toFinset ⊆ Finset.range B.N := by
    intro s hs
    obtain ⟨p, hp, rfl⟩ := List.mem_map.mp (List.mem_toFinset.mp hs)
    exact Finset.mem_range.mpr (hM.inv.slot_lt _ _ (hM.pinned p hp).1)
  have hall : ∀ s < B.N, ∃ p ∈ w.pins, v.ref p.1 = s := by
    intro s hs
    have heq := Finset.eq_of_subset_of_card_le hsub (by
      rw [Finset.card_range, List.toFinset_card_of_nodup hnodup, List.length_map]
      exact hlen)
    have hmem := heq ▸ Finset.mem_range.mpr hs
    simpa using hmem
  refine ⟨?_, ?_⟩
  · intro s hs
    obtain ⟨p, hp, rfl⟩ := hall s hs
    rw [(hM.pinned p hp).2]
    exact one_ne_zero
  · intro hid
    by_contra hne
    obtain ⟨s, hs⟩ := Option.ne_none_iff_exists'.mp hne
    obtain ⟨p, hp, rfl⟩ := hall s (hM.inv.slot_lt _ _ hs)
    exact hid p hp (hM.inv.inj _ _ _ (hM.pinned p hp).1 hs)

end Mirrors

/-- The same rules, with as much room as the page buffer has. -/
structure Fits (B : BufRules) (R : PageRules) : Prop where
  ids : B.ids = R.ids
  asserts : B.asserts = true → R.asserts = true
  limit : R.limit = some B.N

theorem Fits.serves (hB : Fits B R) : Serves B R fun _ => False :=
  ⟨hB.ids, hB.asserts, .inl ⟨B.N, hB.limit, Nat.le_refl _⟩⟩

/-- The state of the page buffer after it was found full: as before, with the table still locked. -/
def Store.stuck (v : Store D H) : Store D H := { v with buf := v.buf.withTable (held false) }

@[simp] theorem Store.stuck_page (v : Store D H) : v.stuck.page = v.page := rfl

/-- The `pinPage` that finds the ideal store full finds the page buffer full. -/
theorem raises_pinPage (hB : Fits B R) (hM : Mirrors B w v) {mode : LatchMode D} {skipLoad : Bool} {w₁ : PageWorld D H}
    (hc : PageWorld.handler R Unit (.pinPage id mode skipLoad) w = .raise .bufferFull w₁) : w₁ = w ∧
      Raises (Store.handler B) (PageCmd.onBuffer Unit (.pinPage id mode skipLoad)) v (.buf .bufferFull)
        fun v' => v' = v.stuck := by
  simp only [PageWorld.handler, hB.limit, Option.any_some, decide_eq_true_eq] at hc
  split at hc
  · cases hc
  next hpin =>
    split at hc
    next hlen =>
      refine ⟨by simpa using hc.symm, ?_⟩
      have hpin' : ∀ p ∈ w.pins, p.1 ≠ id :=
        fun p hp e => hpin (List.any_eq_true.mpr ⟨p, hp, by simpa using e⟩)
      obtain ⟨hpinned, hid⟩ := hM.full hlen id
      simp only [PageCmd.onBuffer, Prog.bind_def]
      refine Raises.bind ?_
      obtain ⟨m, v', hm, b, rfl, rfl⟩ := raises_buf (@pinPage_raises _ _ _ _ mode skipLoad hM.inv (hid hpin') hpinned)
      exact ⟨m, _, hm, rfl⟩
    next =>
      split at hc <;> cases hc

/-- A run that finds the ideal store full finds the page buffer full. -/
theorem raises_run (hB : Fits B R) (hM : Mirrors B w v) {p : PageProg D H α} {P Q' : PageWorld D H → Prop}
    {Q : α → PageWorld D H → Prop} (hP : ∀ w', P w' → w'.kept)
    (hp : Always (PageWorld.handler R).steps (PageWorld.FullOnly R P) p w Q)
    (hr : Raises (PageWorld.handler R) p w .bufferFull Q') :
    Raises (Store.handler B) (onBuffer p) v (.buf .bufferFull) fun v' =>
      ∃ w' v₁, P w' ∧ Q' w' ∧ Mirrors B w' v₁ ∧ v' = v₁.stuck := by
  refine hp.raises_expand (S := Mirrors B) (G := PageWorld.kept) (P := Q')
    (fun _ _ _ _ _ hc => kept_of_handler hc) ?_ ?_ ?_ hM hr
  · intro β c w w₁ hfull hc
    obtain rfl := PageWorld.handler_raise hc
    exact hP w₁ (hfull w₁ hc).2
  · intro β c w v b w₁ hM hc hk
    exact (ends_onBuffer hB.serves hM hc hk).runs fun _ => id
  · intro β c w v w₁ hM hfull hc hQ
    obtain ⟨hpin, hPw⟩ := hfull w₁ hc
    cases c with
    | pinPage id mode skipLoad =>
      obtain ⟨rfl, n, v', hn, rfl⟩ := raises_pinPage hB hM hc
      exact ⟨n, _, hn, w₁, v, hPw, hQ, hM, rfl⟩
    | _ => cases hpin

end BEpsilon.Buffer
