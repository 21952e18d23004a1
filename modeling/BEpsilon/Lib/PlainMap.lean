import Mathlib.Logic.Function.Basic

/-!
# BEpsilon.Lib.PlainMap — the calls on a map, and what a plain map answers

The specification that both trees are compared with: `MapOp` lists the calls, `apply` says how each
one changes a plain map and `answers` what the `find`s in a sequence of calls return.
-/

namespace BEpsilon

/-- The calls on a map. -/
inductive MapOp (K V : Type) : Type
  | insert (key : K) (value : V)
  | update (key : K) (value : V)
  | erase (key : K)
  | find (key : K)

namespace MapOp

variable {K V : Type} [DecidableEq K] [Add V]

/-- The plain map after a call. -/
def apply (m : K → Option V) : MapOp K V → K → Option V
  | insert key value => Function.update m key (some value)
  | update key value => Function.update m key ((m key).map (· + value))
  | erase key => Function.update m key none
  | find _ => m

/-- What a call answers. -/
def answer (m : K → Option V) : MapOp K V → List (Option V)
  | find key => [m key]
  | _ => []

/-- What the calls of a sequence answer, one after another. -/
def answers : (K → Option V) → List (MapOp K V) → List (Option V)
  | _, [] => []
  | m, op :: ops => op.answer m ++ answers (op.apply m) ops

/-- The plain map after a sequence of calls. -/
def applyAll (m : K → Option V) (ops : List (MapOp K V)) : K → Option V := ops.foldl apply m

@[simp] theorem applyAll_nil (m : K → Option V) : applyAll m [] = m := rfl

@[simp] theorem applyAll_cons (m : K → Option V) (op : MapOp K V) (ops : List (MapOp K V)) :
    applyAll m (op :: ops) = applyAll (op.apply m) ops := rfl

end MapOp

end BEpsilon
