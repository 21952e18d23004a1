import BEpsilon.Lib.Refine
import BEpsilon.Buffer.Rounds
import BEpsilon.File.Segment

/-!
# BEpsilon.Buffer.Layout — nodes as the bytes of their pages

A tree casts the bytes of a page to a node.  `onBytes` is a program on nodes as a program on pages of bytes: what it
reads is the node that the bytes stand for, what it writes are the bytes of the node.  A node that is too large for
its page is not read back, so the programs must write nodes that fit (`Writes`); then a life on nodes is a life on
bytes.
-/

namespace BEpsilon.Buffer

open File

variable {D H ι α β : Type} {B : BlockSize}

/-- How the nodes lie on their pages. -/
structure Layout (D : Type) (B : BlockSize) where
  toBlock : D → Block B
  ofBlock : Block B → D

/-- The mode of a pin, decided on the bytes. -/
def Layout.mode (L : Layout D B) : LatchMode D → LatchMode (Block B)
  | .fixed exclusive => .fixed exclusive
  | .modeFunction f => .modeFunction fun b => f (L.ofBlock b)

/-- A command on the bytes of the pages. -/
def Layout.cmd (L : Layout D B) : (β : Type) → PageCmd D H β → PageProg (Block B) H β
  | _, .createPage => .cmd .createPage
  | _, .pinPage id mode skipLoad => .cmd (.pinPage id (L.mode mode) skipLoad)
  | _, .unpinPage id dirty => .cmd (.unpinPage id dirty)
  | _, .read id => (PageProg.read id).bind fun b => .ret (L.ofBlock b)
  | _, .peek id f => .cmd (.peek id fun b => f (L.ofBlock b))
  | _, .write id d => .cmd (.write id (L.toBlock d))
  | _, .header f => .cmd (.header f)
  | _, .check b => .cmd (.check b)
  | _, .raise e => .cmd (.raise e)

/-- A tree operation on the bytes of the pages. -/
def Layout.onBytes (L : Layout D B) (p : PageProg D H α) : PageProg (Block B) H α := p.expand L.cmd

/-! ### Programs that write what fits -/

/-- What is written is `Ok`, which may depend on how many pages there are. -/
def Writes (Ok : ℕ → D → Prop) : (β : Type) → PageCmd D H β → PageWorld D H → Prop
  | _, .write _ d, w => Ok w.created d
  | _, _, _ => True

/-- All nodes are `Ok`. -/
def Contains (Ok : ℕ → D → Prop) (w : PageWorld D H) : Prop := ∀ id d, w.mem id = some d → Ok w.created d

variable {R : PageRules} {Ok : ℕ → D → Prop} {w w₁ : PageWorld D H} {n : ℕ}

/-- What a command that writes what is `Ok` leaves. -/
theorem Contains.step (hOk : ∀ i j d, i ≤ j → Ok i d → Ok j d) {c : PageCmd D H β} {b : β} (hw : Contains Ok w)
    (hΦ : Writes Ok β c w) (hc : PageWorld.handler R β c w = .ok b w₁) : Contains Ok w₁ := by
  have hle := created_of_handler hc
  have hsame : w₁.mem = w.mem → Contains Ok w₁ := fun e id d hd => hOk _ _ _ hle (hw id d (e ▸ hd))
  cases c with
  | write id d =>
    simp only [PageWorld.handler] at hc
    split at hc
    · obtain ⟨-, rfl⟩ := Outcome.ok.inj hc
      intro id' d' hd'
      by_cases e : id' = id
      · subst e
        obtain rfl := by simpa using hd'
        exact hΦ
      · exact hw id' d' (by simpa [Function.update_of_ne e] using hd')
    · cases hc
  | _ => exact hsame (by grind [PageWorld.handler])

/-! ### The same run on bytes -/

/-- The pages of the second store have the bytes of the nodes of the first one. -/
structure Encodes (L : Layout D B) (w : PageWorld D H) (v : PageWorld (Block B) H) : Prop where
  mem : ∀ id, v.mem id = (w.mem id).map L.toBlock
  created : v.created = w.created
  header : v.header = w.header
  pins : v.pins = w.pins.map fun p => (p.1, p.2.map L.toBlock)
  recent : v.recent = w.recent
  kept : w.kept → v.kept
  faithful : ∀ id d, w.mem id = some d → L.ofBlock (L.toBlock d) = d

variable {L : Layout D B} {v : PageWorld (Block B) H}

theorem Encodes.any_pins (hE : Encodes L w v) (id : PageId) :
    (v.pins.any fun p => p.1 == id) = w.pins.any fun p => p.1 == id := by
  rw [hE.pins, List.any_map]
  rfl

theorem Encodes.referenced (hE : Encodes L w v) (id : PageId) : v.referenced id = w.referenced id := by
  rw [PageWorld.referenced, hE.any_pins, hE.recent, PageWorld.referenced]

theorem Encodes.isCreated (hE : Encodes L w v) (id : PageId) : v.isCreated R id = w.isCreated R id := by
  rw [PageWorld.isCreated, hE.created, PageWorld.isCreated]

theorem encodes_handler {c : PageCmd D H β} {b : β} (hE : Encodes L w v)
    (hΦ : Writes (fun _ d => L.ofBlock (L.toBlock d) = d) β c w) (hc : PageWorld.handler R β c w = .ok b w₁) :
    Runs (PageWorld.handler R) (L.cmd β c) v fun b' v₁ => b' = b ∧ Encodes L w₁ v₁ := by
  cases c with
  | createPage =>
    obtain ⟨rfl, rfl⟩ := Outcome.ok.inj hc
    refine runs_call rfl (runs_ret ⟨by rw [hE.created], ?_⟩)
    exact ⟨hE.mem, congrArg (· + 1) hE.created, hE.header, hE.pins, hE.recent, hE.kept, hE.faithful⟩
  | pinPage id mode skipLoad =>
    have hlen : v.pins.length = w.pins.length := by rw [hE.pins, List.length_map]
    have hsome : (v.mem id).isSome = (w.mem id).isSome := by rw [hE.mem, Option.isSome_map]
    simp only [PageWorld.handler] at hc
    split at hc
    · cases hc
    next hpin =>
      split at hc
      · cases hc
      next hlim =>
        split at hc
        · cases hc
        next hmem =>
          obtain ⟨-, rfl⟩ := Outcome.ok.inj hc
          refine runs_call (v := { v with pins := (id, v.mem id) :: v.pins, recent := [] }) ?_
            (runs_ret ⟨rfl, hE.mem, hE.created, hE.header, ?_, rfl, hE.kept, hE.faithful⟩)
          · simp only [PageWorld.handler, hE.any_pins, hlen, hsome, hE.isCreated]
            rw [if_neg hpin, if_neg hlim, if_neg hmem]
          · rw [List.map_cons, hE.mem, hE.pins]
  | unpinPage id dirty =>
    simp only [PageWorld.handler] at hc
    split at hc
    · cases hc
    next p hp =>
      obtain ⟨-, rfl⟩ := Outcome.ok.inj hc
      have hfind : v.pins.find? (fun p => p.1 == id) = some (p.1, p.2.map L.toBlock) := by
        rw [hE.pins, List.find?_map]
        exact congrArg (Option.map fun p => (p.1, p.2.map L.toBlock)) hp
      refine runs_call (v := { v with
        pins := v.pins.eraseP fun p => p.1 == id
        recent := id :: v.recent
        kept := v.kept ∧ (v.mem id).isSome ∧ (dirty = true ∨ v.mem id = p.2.map L.toBlock) }) ?_
        (runs_ret ⟨rfl, hE.mem, hE.created, hE.header, ?_, congrArg _ hE.recent, ?_, hE.faithful⟩)
      · simp only [PageWorld.handler, hfind]
      · dsimp only
        rw [hE.pins, List.eraseP_map]
        rfl
      · rintro ⟨hk, hs, hd⟩
        refine ⟨hE.kept hk, ?_, hd.imp_right fun hd => ?_⟩
        · rw [hE.mem, Option.isSome_map]
          exact hs
        · rw [hE.mem, hd]
  | read id =>
    simp only [PageWorld.handler] at hc
    split at hc
    next d hd =>
      split at hc
      next href =>
        obtain ⟨rfl, rfl⟩ := Outcome.ok.inj hc
        refine runs_call (b := L.toBlock d) (v := v) ?_ (runs_ret ⟨hE.faithful id d hd, hE⟩)
        simp only [PageWorld.handler, hE.mem, hd, Option.map_some, hE.referenced]
        rw [if_pos href]
      · cases hc
    · cases hc
  | peek id f =>
    simp only [PageWorld.handler] at hc
    split at hc
    next d hd =>
      split at hc
      next href =>
        obtain ⟨rfl, rfl⟩ := Outcome.ok.inj hc
        refine runs_call (b := f (L.ofBlock (L.toBlock d))) (v := v) ?_
          (runs_ret ⟨congrArg f (hE.faithful id d hd), hE⟩)
        simp only [PageWorld.handler, hE.mem, hd, Option.map_some, hE.referenced]
        rw [if_pos href]
      · cases hc
    · cases hc
  | write id d =>
    simp only [PageWorld.handler] at hc
    split at hc
    next hpin =>
      obtain ⟨-, rfl⟩ := Outcome.ok.inj hc
      refine runs_call (v := { v with mem := Function.update v.mem id (some (L.toBlock d)) }) ?_
        (runs_ret ⟨rfl, fun id' => ?_, hE.created, hE.header, hE.pins, hE.recent, hE.kept, fun id' d' hd' => ?_⟩)
      · simp only [PageWorld.handler, hE.any_pins]
        rw [if_pos hpin]
      · by_cases e : id' = id
        · subst e
          simp
        · simpa [Function.update_of_ne e] using hE.mem id'
      · by_cases e : id' = id
        · subst e
          obtain rfl := by simpa using hd'
          exact hΦ
        · exact hE.faithful id' d' (by simpa [Function.update_of_ne e] using hd')
    · cases hc
  | header f =>
    obtain ⟨rfl, rfl⟩ := Outcome.ok.inj hc
    refine runs_call rfl (runs_ret ⟨hE.header, ?_⟩)
    exact ⟨hE.mem, hE.created, congrArg f hE.header, hE.pins, hE.recent, hE.kept, hE.faithful⟩
  | check a =>
    simp only [PageWorld.handler] at hc
    split at hc
    · cases hc
    next ha =>
      obtain ⟨-, rfl⟩ := Outcome.ok.inj hc
      refine runs_call (b := ()) (v := v) ?_ (runs_ret ⟨rfl, hE⟩)
      simp only [PageWorld.handler]
      rw [if_neg ha]
  | raise e => cases hc

/-! ### A life on bytes -/

variable {call : ι → PageProg D H (List α)} {jobs : List (Job ι)} {Q : List α → Prop}

/-- The same program on bytes, when what it writes fits. -/
theorem Encodes.runs (hE : Encodes L w v) (hfit : ∀ k ≤ n, ∀ d, Ok k d → L.ofBlock (L.toBlock d) = d)
    {p : PageProg D H α} {P Q : α → PageWorld D H → Prop}
    (hp : Always (PageWorld.handler R).steps (Writes Ok) p w P)
    (hr : Runs (PageWorld.handler R) p w fun a w₁ => w₁.created ≤ n ∧ Q a w₁) :
    Runs (PageWorld.handler R) (L.onBytes p) v fun a v₁ => ∃ w₁, Encodes L w₁ v₁ ∧ P a w₁ ∧ Q a w₁ := by
  obtain ⟨m, a, w₁, hm, hn, hQ⟩ := hr
  have hP := hp.of_returns ⟨m, hm⟩
  refine (runs_expand_always (G := fun w => w.created ≤ n) (S := Encodes L)
    (fun _ _ _ _ _ hc h => (created_of_handler hc).trans h) (fun β c w v b w₁ hE hΦ hc hk => ?_) hp hE hm hn).mono ?_
  · refine encodes_handler hE ?_ hc
    cases c with
    | write id d => exact hfit _ ((created_of_handler hc).trans hk) d hΦ
    | _ => trivial
  · rintro _ v₁ ⟨rfl, hE₁⟩
    exact ⟨w₁, hE₁, hP, hQ⟩

/-- What a life on nodes comes to, the life on bytes comes to, when what the calls write fits. -/
theorem LivesIdeal.onBytes (hOk : ∀ i j d, i ≤ j → Ok i d → Ok j d)
    (hfit : ∀ k ≤ n, ∀ d, Ok k d → L.ofBlock (L.toBlock d) = d)
    (hcall : ∀ i (w : PageWorld D H), Contains Ok w →
      Always (PageWorld.handler R).steps (Writes Ok) (call i) w fun _ _ => True)
    (hE : Encodes L w v) (hw : Contains Ok w)
    (h : LivesIdeal R call jobs w fun out w' => w'.created ≤ n ∧ Q out) :
    LivesIdeal R (fun i => L.onBytes (call i)) jobs v fun out v' => v'.created ≤ n ∧ Q out := by
  induction jobs generalizing w v Q with
  | nil => exact ⟨hE.created ▸ h.1, h.2⟩
  | cons j js ih =>
    cases j with
    | call i =>
      have hkeeps := (hcall i w hw).keeps (J := Contains Ok) (fun _ _ _ _ _ hw hΦ hc => hw.step hOk hΦ hc) hw
      have hrun : Runs (PageWorld.handler R) (call i) w fun a w₁ => w₁.created ≤ n ∧ w₁.kept ∧ w₁.pins = [] ∧
          LivesIdeal R call js w₁ fun out w' => w'.created ≤ n ∧ Q (a ++ out) :=
        Runs.mono h fun a w₁ h₁ => ⟨h₁.2.2.created_le fun _ _ h => h.1, h₁⟩
      refine (hE.runs hfit hkeeps hrun).mono ?_
      rintro a v₁ ⟨w₁, hE₁, ⟨-, hw₁⟩, hk, hpins, h₁⟩
      refine ⟨hE₁.kept hk, ?_, ih hE₁ hw₁ h₁⟩
      rw [hE₁.pins, hpins]
      rfl
    | reopen =>
      refine ih (w := { w with recent := [] }) ?_ hw h
      exact ⟨hE.mem, hE.created, hE.header, hE.pins, rfl, hE.kept, hE.faithful⟩

end BEpsilon.Buffer
