import Mathlib.Tactic.Common

/-!
# Control-flow graphs and block dominance

Blocks are numbered `0 .. size - 1`, and `preds b` lists the control-flow predecessors of `b`
in the order of the inputs of its Phis. Block dominance is the dominance of paths, as the back
end reads it off a consistent dominator tree.
-/

namespace LibFirm

structure Cfg where
  size : Nat
  entry : Nat
  preds : Nat → List Nat

namespace Cfg

variable (g : Cfg)

/-- The control-flow successors of a block. -/
def succs (x : Nat) : List Nat := (List.range g.size).filter fun y => x ∈ g.preds y

/-- A path of at most `fuel` edges from `x` to `y` that goes on from no block `d`: it may end
in `d`, but not pass through it. -/
def reachThrough (d : Nat) : Nat → Nat → Nat → Bool
  | 0, x, y => x == y
  | fuel + 1, x, y => x == y || (x != d && (g.succs x).any fun z => reachThrough d fuel z y)

/-- `block_dominates`: every path from the start block to `b` meets `d`. -/
def blockDominates (d b : Nat) : Bool := d == b || !g.reachThrough d g.size g.entry b

end Cfg

end LibFirm
